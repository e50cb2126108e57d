import TriStore.Proofs.Lines
import TriStore.Proofs.Refill
import TriStore.Proofs.Replay

/-!
# Stores rebuilt from their listings

A table is listed line by line, with a key and a value in each line. Records that came in by lines have
a word for their key and words with single spaces between them for their value, so each line is a
request again once the verb is put in front of it, and can be read back as the record it stands for.
-/

namespace TriStore

open Text (IsWord Phrase Spelled OneLine)
open Table (Fills)

namespace Record

def line (r : Record) : String := r.key ++ " " ++ r.value

def ofLine (line : String) : Record :=
  let words := Text.words line
  ⟨words.headD "", " ".intercalate words.tail⟩

def Written (r : Record) : Prop := ∃ values, (Command.set r.key r.value).Writable values

variable {r : Record}

theorem Written.exists_words (h : r.Written) : ∃ values, (Command.set r.key r.value).Writable values ∧
    (∀ word ∈ r.key :: values, IsWord word) ∧ r.value = " ".intercalate values ∧
    r.line = " ".intercalate (r.key :: values) := by
  obtain ⟨values, hwritable⟩ := h
  obtain ⟨hne, hwords, hvalue⟩ := Phrase.of_some hwritable.value
  refine ⟨values, hwritable, List.forall_mem_cons.mpr ⟨hwritable.key, hwords⟩, hvalue, ?_⟩
  obtain ⟨first, rest, rfl⟩ := List.exists_cons_of_ne_nil hne
  rw [line, String.intercalate_cons_cons, hvalue]

theorem Written.ofLine_line (h : r.Written) : ofLine r.line = r := by
  obtain ⟨values, -, hwords, hvalue, hline⟩ := h.exists_words
  rw [ofLine, hline, Text.words_intercalate hwords, List.headD_cons, List.tail_cons, ← hvalue]

theorem Written.oneLine_line (h : r.Written) : OneLine r.line := by
  obtain ⟨values, -, hwords, -, hline⟩ := h.exists_words
  rw [hline]
  exact .intercalate_space fun word hword => (hwords word hword).oneLine

end Record

namespace Store
variable {c : Config} {s : Store} {target : Target}

theorem written_execute (h : Reachable c s) (hs : ∀ target, ∀ r ∈ s.toList target, r.Written)
    {request : Request} (hline : ∃ line, request = .ofLine line) (target : Target) :
    ∀ r ∈ (s.execute request).2.toList target, r.Written := by
  intro r hr
  rcases mem_toList_execute h hr with hr | ⟨command, hparse, hkey, hvalue⟩
  · exact hs target r hr
  · obtain ⟨line, rfl⟩ := hline
    obtain ⟨values, hword, hphrase⟩ := Request.writable_of_parse hparse
    rw [hkey] at hword
    rw [hvalue] at hphrase
    exact ⟨values, hword, hphrase⟩

theorem written_served (h : Reachable c s) (hs : ∀ target, ∀ r ∈ s.toList target, r.Written)
    {requests : List Request} (hlines : ∀ r ∈ requests, ∃ line, r = Request.ofLine line)
    (target : Target) : ∀ r ∈ (s.served requests).toList target, r.Written := by
  induction requests generalizing s with
  | nil => exact hs target
  | cons request requests ih =>
    obtain ⟨hline, hlines⟩ := List.forall_mem_cons.mp hlines
    have hnext : Reachable c (s.execute request).2 := h.act (.execute request)
    rw [Store.served]
    exact ih hnext (written_execute h hs hline) hlines

theorem exists_calls (s : Store) (requests : List Request) (target : Target) :
    ∃ calls, (s.served requests).table target = Table.after (s.table target) calls := by
  induction requests generalizing s with
  | nil => exact ⟨[], rfl⟩
  | cons r requests ih =>
    rw [Store.served]
    obtain ⟨calls, hcalls⟩ := ih (s.execute r).2
    rw [hcalls]
    have hact : (s.execute r).2 = s.act (.execute r) := by rw [act]
    by_cases hcall : ∃ call, (Action.execute r).call? = some (target, call)
    · obtain ⟨call, hcall⟩ := hcall
      rw [hact, table_act s hcall]
      exact ⟨call :: calls, rfl⟩
    · rw [hact, table_act_of_ne s (not_exists.mp hcall)]
      exact ⟨calls, rfl⟩

/-- Requests that set records to which a table has no objection. -/
theorem served_fills {records : List Record} {t : target.Form} {request : Record → Request}
    (h : Fills (s.table target) records t)
    (hparse : ∀ r ∈ records, (request r).parse = .ok (target, .set r.key r.value)) :
    (s.responses (records.map request)).map (·.line) = records.map (fun _ => "OK Set successfully") ∧
      (s.served (records.map request)).table target = t := by
  generalize hstart : s.table target = start at h
  induction h generalizing s with
  | nil => exact ⟨rfl, hstart⟩
  | @cons start next last r records hinsert _ ih =>
    obtain ⟨hr, hrecords⟩ := List.forall_mem_cons.mp hparse
    have hperform : Table.perform (s.table target) (.insert r.key r.value) = (.done, next) := by
      rw [hstart, Table.perform, hinsert]
    have hexecute := s.execute_of_ok target hr
    rw [Command.call, hperform] at hexecute
    have hnext : (s.execute (request r)).2.table target = next := by
      rw [hexecute]
      exact table_setTable s target next
    obtain ⟨hlines, hlast⟩ := ih hrecords hnext
    rw [List.map_cons, Store.responses, Store.served, List.map_cons, hlines, List.map_cons]
    refine ⟨?_, hlast⟩
    rw [hexecute]
    rfl

end Store

namespace CommandLine

def scanLine (target : Target) : String := "SCAN " ++ target.name

def setLine (target : Target) (listed : String) : String := target.letter.text ++ "SET " ++ listed

/-- The records in what is printed for a table. -/
def readListing (text : String) : List Record := (Text.lines text).dropLast.map Record.ofLine

variable {s : Store} {target : Target} {r : Record}

theorem exec_scanLine (s : Store) (target : Target) :
    exec s [scanLine target] = ((s.toList target).map Record.line, s) := by
  have htrim : Text.trim (scanLine target) = scanLine target := by cases target <;> rfl
  have hscan : Statement.ofLine (scanLine target) = .scan (some target.name) := by
    cases target <;> rfl
  have hempty : (scanLine target).isEmpty = false := by cases target <;> rfl
  have hname : Target.ofName? target.name = some target := by cases target <;> rfl
  rw [exec, htrim, hempty, hscan]
  simp only [Statement.run, Statement.listing, hname, exec, List.append_nil]
  rfl

theorem run_ofLine (s : Store) (line : String) :
    ((Statement.ofLine line).run s).2 = s ∨
      ((Statement.ofLine line).run s).2 = (s.execute (.ofLine line)).2 := by
  unfold Statement.ofLine
  generalize Request.ofLine line = request
  dsimp only
  split
  · exact Or.inl rfl
  · split
    · exact Or.inl rfl
    · rw [Statement.run]
      cases s.execute request
      exact Or.inr rfl

theorem exec_cons (s : Store) (line : String) (lines : List String) :
    (exec s (line :: lines)).2 =
      (exec (if (Text.trim line).isEmpty then s
        else ((Statement.ofLine (Text.trim line)).run s).2) lines).2 := by
  rw [exec]
  split
  · rfl
  · obtain ⟨answer, next⟩ := (Statement.ofLine (Text.trim line)).run s
    rfl

/-- Only the requests among some lines have a part in the store after them. -/
theorem exists_requests (s : Store) (lines : List String) :
    ∃ requests, (∀ r ∈ requests, ∃ line, r = Request.ofLine line) ∧
      (exec s lines).2 = s.served requests := by
  induction lines generalizing s with
  | nil => exact ⟨[], nofun, rfl⟩
  | cons line lines ih =>
    rw [exec_cons]
    split
    · exact ih s
    · rcases run_ofLine s (Text.trim line) with hkept | hexecuted
      · rw [hkept]
        exact ih s
      · rw [hexecuted]
        obtain ⟨requests, hlines, hserved⟩ := ih (s.execute (.ofLine (Text.trim line))).2
        refine ⟨.ofLine (Text.trim line) :: requests, ?_, ?_⟩
        · exact List.forall_mem_cons.mpr ⟨⟨_, rfl⟩, hlines⟩
        · rw [hserved, Store.served]

theorem spelled_setLine (h : r.Written) (target : Target) :
    ∃ values, (Command.set r.key r.value).Writable values ∧
      Spelled (setLine target r.line).toList ((target.letter.text ++ "SET") :: r.key :: values) := by
  obtain ⟨values, hwritable, hwords, -, hline⟩ := h.exists_words
  have hverb : IsWord (target.letter.text ++ "SET") := by
    cases target <;> decide
  have htext : setLine target r.line =
      " ".intercalate ((target.letter.text ++ "SET") :: r.key :: values) := by
    have hset : "SET " = "SET" ++ " " := rfl
    rw [String.intercalate_cons_cons, ← hline, setLine, hset, ← String.append_assoc]
  rw [htext]
  exact ⟨values, hwritable, Text.spelled_intercalate (List.forall_mem_cons.mpr ⟨hverb, hwords⟩)⟩

theorem parse_setLine (h : r.Written) (target : Target) :
    (Request.ofLine (Text.trim (setLine target r.line))).parse =
      .ok (target, .set r.key r.value) := by
  obtain ⟨values, hwritable, hspelled⟩ := spelled_setLine h target
  rw [Text.spelled_iff, ← Text.words_trim, ← Text.spelled_iff] at hspelled
  have hupper : Text.upper (target.letter.text ++ "SET") = target.letter.text ++ "SET" := by
    cases target <;> decide
  have hset : VerbName.set.verb = (Command.set r.key r.value).verb := rfl
  exact Request.parse_of_spelled hwritable hset hupper hspelled

theorem setLine_is_request (h : r.Written) (target : Target) :
    (Text.trim (setLine target r.line)).isEmpty = false ∧
      isInquiry (Text.trim (setLine target r.line)) = false := by
  obtain ⟨values, -, hspelled⟩ := spelled_setLine h target
  have hwords := Text.spelled_iff.mp hspelled
  constructor
  · rw [String.isEmpty_eq_false_iff]
    exact Text.trim_ne_empty (hwords ▸ List.cons_ne_nil _ _)
  · rw [isInquiry, Text.words_trim, hwords, List.headD_cons]
    cases target <;> decide

theorem exec_setLines {records : List Record} {t : target.Form} (h : Fills (s.table target) records t)
    (hwritten : ∀ r ∈ records, r.Written) :
    let run := exec s ((records.map Record.line).map (setLine target))
    run.1 = records.map (fun _ => "OK Set successfully") ∧ run.2.table target = t := by
  have hkept : ∀ line ∈ (records.map Record.line).map (setLine target),
      (Text.trim line).isEmpty = false ∧ isInquiry (Text.trim line) = false := by
    intro line hline
    rw [List.map_map] at hline
    obtain ⟨r, hr, rfl⟩ := List.mem_map.mp hline
    exact setLine_is_request (hwritten r hr) target
  obtain ⟨hlines, htable⟩ := Store.served_fills h fun r hr => parse_setLine (hwritten r hr) target
  have hexec := exec_append s [] hkept
  rw [List.append_nil, List.map_map, List.map_map] at hexec
  simp only [hexec]
  exact ⟨(List.append_nil _).trans hlines, htable⟩

theorem readListing_output {records : List Record} (h : ∀ r ∈ records, r.Written) :
    readListing (Outcome.done (records.map Record.line)).output = records := by
  have hlines : ∀ line ∈ records.map Record.line, '\n' ∉ line.toList := by
    intro line hline
    obtain ⟨r, hr, rfl⟩ := List.mem_map.mp hline
    exact (h r hr).oneLine_line.not_mem_lineFeed
  rw [readListing, Outcome.done, Text.lines_join hlines, List.dropLast_concat, List.map_map]
  exact (List.map_congr_left fun r hr => (h r hr).ofLine_line).trans (List.map_id _)

/-- The lines that a scan prints after any lines on a new store set the same records on another new
store, where a scan prints them again. What is printed can be read back as the records of the table, in
their order. -/
theorem scan_rebuilds {c : Config} (hconfig : c.validate = .ok ()) :
    ∃ s, Store.ofConfig c = .ok s ∧ ∀ (lines : List String) (target : Target),
      let filled := (exec s lines).2
      let listed := (exec filled [scanLine target]).1
      let rebuilt := exec s (listed.map (setLine target))
      rebuilt.1 = listed.map (fun _ => "OK Set successfully") ∧
        (exec rebuilt.2 [scanLine target]).1 = listed ∧
        readListing (Outcome.done listed).output = filled.toList target := by
  obtain ⟨s, hstore⟩ := Store.exists_ofConfig hconfig
  have hempty := Store.toList_ofConfig hstore
  refine ⟨s, hstore, fun lines target => ?_⟩
  obtain ⟨requests, hlines, hfilled⟩ := exists_requests s lines
  obtain ⟨calls, hcalls⟩ := s.exists_calls requests target
  have hlisting : Table.toList (Table.after (s.table target) calls) =
      (exec s lines).2.toList target := by
    rw [← hcalls, ← Store.toList_eq, hfilled]
  have hwritten : ∀ r ∈ (exec s lines).2.toList target, r.Written := by
    rw [hfilled]
    refine Store.written_served (.new hstore) (fun target r hr => ?_) hlines target
    rw [hempty] at hr
    cases hr
  obtain ⟨t, hfills, hsame⟩ := Target.fills_listing (Store.sound_ofConfig hstore target).1
    ((s.toList_eq target).symm.trans (hempty target)) calls
  rw [hlisting] at hfills hsame
  obtain ⟨hanswers, htable⟩ := exec_setLines hfills hwritten
  simp only [exec_scanLine]
  refine ⟨?_, ?_, readListing_output hwritten⟩
  · rw [hanswers, List.map_map]
    rfl
  · rw [Store.toList_eq, htable, hsame]

/-- A chain in which the last record has moved into a gap, and a value with several blanks. -/
theorem scan_rebuilds_of_four : ∃ s, Store.ofConfig ⟨3, 3, 3, some 1⟩ = .ok s ∧
    let listed := (exec (exec s ["HSET a 1", "hset\u00a0b 2 \u2003 x", "HSET c 3", "HDEL a"]).2
      [scanLine .hash]).1
    listed = ["c 3", "b 2 x"] ∧
      (exec s ["HSET c 3", "HSET b 2 x"]).1 = ["OK Set successfully", "OK Set successfully"] ∧
      (exec (exec s ["HSET c 3", "HSET b 2 x"]).2 [scanLine .hash]).1 = listed := by
  have hnew : Store.ofConfig ⟨3, 3, 3, some 1⟩ = .ok ⟨.empty 3, .empty 3 1, .empty 3⟩ := rfl
  obtain ⟨s, hstore, hscan⟩ := @scan_rebuilds ⟨3, 3, 3, some 1⟩ rfl
  obtain ⟨hanswers, hlisted, -⟩ :=
    hscan ["HSET a 1", "hset\u00a0b 2 \u2003 x", "HSET c 3", "HDEL a"] .hash
  refine ⟨s, hstore, ?_⟩
  rw [hnew] at hstore
  cases hstore
  have hlines : (exec (exec ⟨.empty 3, .empty 3 1, .empty 3⟩
      ["HSET a 1", "hset\u00a0b 2 \u2003 x", "HSET c 3", "HDEL a"]).2 [scanLine .hash]).1 =
        ["c 3", "b 2 x"] := by
    decide +kernel
  have hset : ["c 3", "b 2 x"].map (setLine .hash) = ["HSET c 3", "HSET b 2 x"] := rfl
  rw [hlines, hset] at hanswers hlisted
  rw [hlines]
  exact ⟨rfl, hanswers, hlisted⟩

end CommandLine

end TriStore
