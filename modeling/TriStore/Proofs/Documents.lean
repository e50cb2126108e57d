import TriStore.Proofs.Json.Structures
import TriStore.Wire

/-!
# The texts of wire values

Which fields each structure has, which texts give a field, and what may be left out. A text may give
the fields in any order, with unknown ones among them and with any space; it is read as the value it
gives. A known field that comes a second time makes it unreadable.
-/

namespace TriStore

open Json

def Usage.forms : List (Form Usage) :=
  [.required "count" NaturalText (·.count), .required "remaining" NaturalText (·.remaining),
    .required "max" NaturalText (·.max)]

def Stats.forms : List (Form Stats) :=
  [.required "array" (StructureText Usage.forms) (·.array),
    .required "hash" (StructureText Usage.forms) (·.hash),
    .required "rbtree" (StructureText Usage.forms) (·.tree)]

def Request.forms : List (Form Request) :=
  [.required "cmd" Quoted (·.cmd), .optional "key" (OptionalText Quoted) (·.key) none,
    .optional "value" (OptionalText Quoted) (·.value) none,
    .optional "target" (OptionalText Quoted) (·.target) none]

def Record.forms : List (Form Record) :=
  [.required "key" Quoted (·.key), .required "value" Quoted (·.value)]

def Response.forms : List (Form Response) :=
  [.required "status" (NameText Status.name) (·.status), .required "message" Quoted (·.message),
    .optional "value" (OptionalText Quoted) (·.value) none,
    .optional "data" (OptionalText (StructureText Stats.forms)) (·.data) none]

def Config.forms : List (Form Config) :=
  [.optional "array_capacity" NaturalText (·.arrayCapacity) Config.defaultCapacity,
    .optional "hash_capacity" NaturalText (·.hashCapacity) Config.defaultCapacity,
    .optional "rbtree_capacity" NaturalText (·.treeCapacity) Config.defaultCapacity,
    .optional "hash_buckets" (OptionalText NaturalText) (·.hashBuckets) none]

theorem Request.shape_reads : Request.shape.Reads Request.forms where
  fields := by
    refine .cons (Field.reads_mandatory Codec.text_reads fun _ _ _ h => ?_)
      (.cons (Field.reads_omitted Codec.text_reads Codec.text_notNull fun _ _ _ h => ?_)
      (.cons (Field.reads_omitted Codec.text_reads Codec.text_notNull fun _ _ _ h => ?_)
      (.cons (Field.reads_omitted Codec.text_reads Codec.text_notNull fun _ _ _ h => ?_) .nil)))
    all_goals simpa [Agrees, Request.forms, Form.required, Form.optional] using h
  names := by decide
  blank := by
    intro x
    simp [Request.forms, Form.required, Form.optional, Request.shape]
  ext := by
    intro x y h
    cases x
    cases y
    simpa [Request.forms, Form.required, Form.optional] using h

theorem Record.shape_reads : Record.shape.Reads Record.forms where
  fields := by
    refine .cons (Field.reads_mandatory Codec.text_reads fun _ _ _ h => ?_)
      (.cons (Field.reads_mandatory Codec.text_reads fun _ _ _ h => ?_) .nil)
    all_goals simpa [Agrees, Record.forms, Form.required] using h
  names := by decide
  blank := by
    intro x
    simp [Record.forms, Form.required]
  ext := by
    intro x y h
    cases x
    cases y
    simpa [Record.forms, Form.required] using h

theorem Usage.shape_reads : Usage.shape.Reads Usage.forms where
  fields := by
    refine .cons (Field.reads_mandatory Codec.natural_reads fun _ _ _ h => ?_)
      (.cons (Field.reads_mandatory Codec.natural_reads fun _ _ _ h => ?_)
      (.cons (Field.reads_mandatory Codec.natural_reads fun _ _ _ h => ?_) .nil))
    all_goals simpa [Agrees, Usage.forms, Form.required] using h
  names := by decide
  blank := by
    intro x
    simp [Usage.forms, Form.required]
  ext := by
    intro x y h
    cases x
    cases y
    simpa [Usage.forms, Form.required] using h

theorem Stats.shape_reads : Stats.shape.Reads Stats.forms where
  fields := by
    refine .cons (Field.reads_mandatory Usage.shape_reads.codec fun _ _ _ h => ?_)
      (.cons (Field.reads_mandatory Usage.shape_reads.codec fun _ _ _ h => ?_)
      (.cons (Field.reads_mandatory Usage.shape_reads.codec fun _ _ _ h => ?_) .nil))
    all_goals simpa [Agrees, Stats.forms, Form.required] using h
  names := by decide
  blank := by
    intro x
    simp [Stats.forms, Form.required]
  ext := by
    intro x y h
    cases x
    cases y
    simpa [Stats.forms, Form.required] using h

theorem Target.codec_reads : Target.codec.Reads (NameText Target.name) := by
  apply Codec.names_reads
  intro target
  cases target <;> rfl

theorem Status.codec_reads : Status.codec.Reads (NameText Status.name) := by
  apply Codec.names_reads
  intro status
  cases status <;> rfl

theorem Response.shape_reads : Response.shape.Reads Response.forms where
  fields := by
    refine .cons (Field.reads_mandatory Status.codec_reads fun _ _ _ h => ?_)
      (.cons (Field.reads_mandatory Codec.text_reads fun _ _ _ h => ?_)
      (.cons (Field.reads_omitted Codec.text_reads Codec.text_notNull fun _ _ _ h => ?_)
      (.cons (Field.reads_omitted Stats.shape_reads.codec (structure_notNull _)
        fun _ _ _ h => ?_) .nil)))
    all_goals simpa [Agrees, Response.forms, Form.required, Form.optional] using h
  names := by decide
  blank := by
    intro x
    simp [Response.forms, Form.required, Form.optional, Response.shape]
  ext := by
    intro x y h
    cases x
    cases y
    simpa [Response.forms, Form.required, Form.optional] using h

theorem Config.shape_reads : Config.shape.Reads Config.forms where
  fields := by
    have hbuckets := Codec.optional_reads Codec.natural_reads Codec.natural_notNull
    refine .cons (Field.reads_defaulted Codec.natural_reads (fun _ _ _ h => ?_) _)
      (.cons (Field.reads_defaulted Codec.natural_reads (fun _ _ _ h => ?_) _)
      (.cons (Field.reads_defaulted Codec.natural_reads (fun _ _ _ h => ?_) _)
      (.cons (Field.reads_defaulted hbuckets (fun _ _ _ h => ?_) _) .nil)))
    all_goals simpa [Agrees, Config.forms, Form.optional] using h
  names := by decide
  blank := by
    intro x
    simp [Config.forms, Form.optional, Config.shape, Config.standard, Config.uniform]
  ext := by
    intro x y h
    cases x
    cases y
    simpa [Config.forms, Form.optional] using h

/-- A request, a response and a configuration are read off each text that gives one: an object with the
fields in any order and unknown ones among them, or an array of the first fields, where a field that is
not given is one that may be left out. A text with a known field a second time is refused. -/
theorem documents_read :
    Request.codec.ReadsDocuments Request.forms ∧ Response.codec.ReadsDocuments Response.forms ∧
      Config.codec.ReadsDocuments Config.forms :=
  ⟨Request.shape_reads.documents, Response.shape_reads.documents, Config.shape_reads.documents⟩

/-- A request with an escape in a name, an unknown field in front and a key that is null; a configuration
of one number; and a request with two command words. -/
theorem documents_read_of_three :
    (∃ text, Document (StructureText Request.forms ⟨"GET", none, none, none⟩) text ∧
      Request.codec.decode text = .ok ⟨"GET", none, none, none⟩) ∧
    (∃ text, Document (StructureText Config.forms ⟨7, 1024, 1024, none⟩) text ∧
      Config.codec.decode text = .ok ⟨7, 1024, 1024, none⟩) ∧
    ∃ text, Document (RepeatedText Request.forms) text ∧
      Request.codec.decode text = .error .mismatch := by
  obtain ⟨hrequest, -, hconfig⟩ := documents_read
  have hempty : Space [] := space_nil
  have hspace : Space [' '] := by simp [Space, isSpace]
  have hcmd : Quoted "cmd" ['"', '\\', 'u', '0', '0', '6', '3', 'm', 'd', '"'] := by
    have hhex : Hex 99 ['0', '0', '6', '3'] :=
      .digits (show hexDigit? '0' = some 0 from rfl) (show hexDigit? '0' = some 0 from rfl)
        (show hexDigit? '6' = some 6 from rfl) (show hexDigit? '3' = some 3 from rfl)
    have hspelling : Spelling ['c', 'm', 'd'] ['\\', 'u', '0', '0', '6', '3', 'm', 'd'] :=
      .numbered (.single hhex rfl rfl) (spelling_escaped ['m', 'd'])
    exact ⟨_, hspelling, rfl⟩
  have hnested : Formed none ['[', '{', '}', ']'] :=
    .bracket (b := .square) (.item hempty (.empty (b := .curly) hempty) hempty)
  refine ⟨⟨" \x7b\"x\":[\x7b\x7d], \"key\":null,\"\\u0063md\":\"GET\"\x7d", ?_⟩, ⟨"[7 ]", ?_⟩,
    "\x7b\"cmd\":\"GET\",\"cmd\":0\x7d", ?_⟩
  · have hmembers : Commas MemberText [("x", ['[', '{', '}', ']']), ("key", ['n', 'u', 'l', 'l']),
        ("cmd", writeQuoted "GET")] _ :=
      .cons (.parts hempty (quoted_written "x") hempty hempty hempty)
        (.cons (.parts hspace (quoted_written "key") hempty hempty hempty)
          (.one (.parts hempty hcmd hempty hempty hempty)))
    have hgiven : Given Request.forms ⟨"GET", none, none, none⟩ [("x", ['[', '{', '}', ']']),
        ("key", ['n', 'u', 'l', 'l']), ("cmd", writeQuoted "GET")] := by
      refine ⟨List.forall_mem_cons.mpr ⟨⟨?_, fun _ => hnested⟩, List.forall_mem_cons.mpr
        ⟨⟨?_, ?_⟩, List.forall_mem_singleton.mpr ⟨?_, ?_⟩⟩⟩, ?_, ?_⟩
      all_goals simp [Request.forms, Form.required, Form.optional, quoted_written, OptionalText.null]
    refine (fun h => ⟨h, hrequest.given _ _ h⟩) ⟨[' '], _, [], hspace, hempty, ?_,
      .object (.items hmembers) hgiven⟩
    decide
  · have hlisted : Listed ⟨7, 1024, 1024, none⟩ Config.forms [['7']] := by
      refine .item ⟨by decide, rfl⟩ (.stop ?_)
      simp [Form.optional, Config.defaultCapacity]
    refine (fun h => ⟨h, hconfig.given _ _ h⟩) ⟨[], _, [], hempty, hempty, ?_,
      .array (.items (.one (.parts hempty hspace))) hlisted⟩
    decide
  · have hmembers : Commas MemberText ([("cmd", writeQuoted "GET")] ++ ("cmd", ['0']) :: []) _ :=
      .cons (.parts hempty (quoted_written "cmd") hempty hempty hempty)
        (.one (.parts hempty (quoted_written "cmd") hempty hempty hempty))
    refine (fun h => ⟨h, hrequest.repeated _ h⟩) ⟨[], _, [], hempty, hempty, ?_,
      .object (.items hmembers) (List.forall_mem_singleton.mpr ⟨?_, ?_⟩) ?_ ?_⟩
    · decide
    · simpa [Request.forms, Form.required, Form.optional] using
        ⟨⟨"GET", none, none, none⟩, quoted_written "GET"⟩
    all_goals simp [Request.forms, Form.required, Form.optional]

end TriStore
