import Mathlib.Data.List.Nodup
import TriStore.Proofs.Request

/-!
# The grammar of requests

A request is a command if five conditions hold of it: one on its command word, two on the table it
names, one on its key and one on its value. They are checked in this order, and the first that does
not hold is reported.
-/

namespace TriStore

namespace Verb

def command (key value : String) : Verb → Command
  | set => .set key value
  | get => .get key
  | del => .del key
  | update => .update key value
  | exist => .exist key

theorem command_eq {command : Command} {value : String}
    (hvalue : ∀ given ∈ command.value?, given = value) :
    command.verb.command command.key value = command := by
  cases command with
  | set key given =>
    cases hvalue given rfl
    rfl
  | update key given =>
    cases hvalue given rfl
    rfl
  | get => rfl
  | del => rfl
  | exist => rfl

end Verb

theorem Command.exists_value (command : Command)
    (h : command.verb = .set ∨ command.verb = .update) :
    ∃ value, command.value? = some value := by
  cases command with
  | set key value => exact ⟨value, rfl⟩
  | update key value => exact ⟨value, rfl⟩
  | get => rcases h with h | h <;> cases h
  | del => rcases h with h | h <;> cases h
  | exist => rcases h with h | h <;> cases h

inductive Letter where
  | none
  | r
  | h
  deriving DecidableEq

namespace Letter

def text : Letter → String
  | none => ""
  | r => "R"
  | h => "H"

def target? : Letter → Option Target
  | none => Option.none
  | r => some .tree
  | h => some .hash

end Letter

inductive VerbName where
  | set
  | get
  | del
  | update
  | mod
  | exist
  deriving DecidableEq

namespace VerbName

def text : VerbName → String
  | set => "SET"
  | get => "GET"
  | del => "DEL"
  | update => "UPDATE"
  | mod => "MOD"
  | exist => "EXIST"

def verb : VerbName → Verb
  | set => .set
  | get => .get
  | del => .del
  | update | mod => .update
  | exist => .exist

theorem ofName?_eq_some_iff {s : String} {verb : Verb} :
    Verb.ofName? s = some verb ↔ ∃ name : VerbName, s = name.text ∧ name.verb = verb := by
  constructor
  · intro h
    obtain ⟨before, after, hnames, -⟩ := List.lookup_eq_some_iff.mp h
    have hmem : (s, verb) ∈ Verb.names := by
      rw [hnames]
      exact List.mem_append_right _ List.mem_cons_self
    simp only [Verb.names, List.mem_cons, Prod.mk.injEq, List.not_mem_nil, or_false] at hmem
    rcases hmem with ⟨rfl, rfl⟩ | ⟨rfl, rfl⟩ | ⟨rfl, rfl⟩ | ⟨rfl, rfl⟩ | ⟨rfl, rfl⟩ | ⟨rfl, rfl⟩
    · exact ⟨set, rfl, rfl⟩
    · exact ⟨get, rfl, rfl⟩
    · exact ⟨del, rfl, rfl⟩
    · exact ⟨update, rfl, rfl⟩
    · exact ⟨mod, rfl, rfl⟩
    · exact ⟨exist, rfl, rfl⟩
  · rintro ⟨name, rfl, rfl⟩
    cases name <;> rfl

end VerbName

/-- A way to read a word as a letter and the name of a verb. -/
structure CommandWord (word : String) where
  letter : Letter
  name : VerbName
  upper_trim : Text.upper (Text.trim word) = letter.text ++ name.text

namespace CommandWord
variable {word : String}

def spellings : List (Letter × VerbName) :=
  [Letter.none, .r, .h].flatMap fun letter =>
    [VerbName.set, .get, .del, .update, .mod, .exist].map fun name => (letter, name)

theorem mem_spellings (letter : Letter) (name : VerbName) : (letter, name) ∈ spellings := by
  cases letter <;> cases name <;> decide

theorem spellings_nodup : (spellings.map fun (letter, name) => letter.text ++ name.text).Nodup := by
  decide

instance : Subsingleton (CommandWord word) where
  allEq := by
    rintro ⟨letter, name, h⟩ ⟨letter', name', h'⟩
    have hsame := List.inj_on_of_nodup_map spellings_nodup (mem_spellings letter name)
      (mem_spellings letter' name') (h.symm.trans h')
    cases hsame
    rfl

theorem split?_eq (w : CommandWord word) :
    Verb.split? word = some (w.letter.target?, w.name.verb) := by
  obtain ⟨letter, name, h⟩ := w
  unfold Verb.split?
  rw [h]
  cases letter <;> cases name <;> rfl

theorem exists_of_split? {lettered : Option Target} {verb : Verb}
    (h : Verb.split? word = some (lettered, verb)) :
    ∃ w : CommandWord word, w.letter.target? = lettered ∧ w.name.verb = verb := by
  unfold Verb.split? at h
  generalize hname : Text.upper (Text.trim word) = name at h
  dsimp only at h
  split at h
  · next verb hverb =>
    cases h
    obtain ⟨verbName, rfl, rfl⟩ := VerbName.ofName?_eq_some_iff.mp hverb
    exact ⟨⟨.none, verbName, hname.trans String.empty_append.symm⟩, rfl, rfl⟩
  · have hletter {letter : Char} {cs : List Char} (hcs : name.toList = letter :: cs) :
        name = String.ofList [letter] ++ String.ofList cs := by
      rw [← String.ofList_append, List.singleton_append, ← hcs, String.ofList_toList]
    split at h
    · next cs hcs =>
      obtain ⟨verb, hverb, hsome⟩ := Option.map_eq_some_iff.mp h
      cases hsome
      obtain ⟨verbName, htext, rfl⟩ := VerbName.ofName?_eq_some_iff.mp hverb
      exact ⟨⟨.r, verbName, hname.trans (htext ▸ hletter hcs)⟩, rfl, rfl⟩
    · next cs hcs =>
      obtain ⟨verb, hverb, hsome⟩ := Option.map_eq_some_iff.mp h
      cases hsome
      obtain ⟨verbName, htext, rfl⟩ := VerbName.ofName?_eq_some_iff.mp hverb
      exact ⟨⟨.h, verbName, hname.trans (htext ▸ hletter hcs)⟩, rfl, rfl⟩
    · cases h

/-- The table of a request with this command word: the one of the letter, else the one named, else
the array. -/
inductive Addresses (w : CommandWord word) : Option String → Target → Prop where
  | lettered {named : Option String} {target : Target} :
      w.letter.target? = some target → Addresses w named target
  | named {name : String} {target : Target} : w.letter.target? = none →
      Text.lower name = target.name → Addresses w (some name) target
  | unnamed : w.letter.target? = none → Addresses w none .array

end CommandWord

namespace Request

inductive Rule where
  | command
  | target
  | agreement
  | key
  | value

namespace Rule

def place : Rule → Nat
  | command => 1
  | target => 2
  | agreement => 3
  | key => 4
  | value => 5

def Holds (r : Request) : Rule → Prop
  | command => Nonempty (CommandWord r.cmd)
  | target => ∀ name ∈ r.target, ∃ target : Target, Text.lower name = target.name
  | agreement => ∀ word : CommandWord r.cmd, ∀ lettered ∈ word.letter.target?,
    ∀ name ∈ r.target, Text.lower name = lettered.name
  | key => ∃ key ∈ r.key, key ≠ ""
  | value => ∀ word : CommandWord r.cmd,
    word.name = .set ∨ word.name = .update ∨ word.name = .mod → ∃ value ∈ r.value, value ≠ ""

inductive Says (r : Request) : Rule → String → Prop where
  | command : Says r command "Unknown command"
  | target {name : String} : r.target = some name → Says r target ("Unknown target: " ++ name)
  | agreement {word : CommandWord r.cmd} {lettered named : Target} {name : String} :
      word.letter.target? = some lettered → r.target = some name →
      Text.lower name = named.name →
      Says r agreement ("Conflicting target: " ++ r.cmd ++ " addresses " ++ lettered.name ++
        " but target is " ++ named.name)
  | key : Says r key "Key required"
  | value : Says r value "Value required"

/-- A condition that does not hold, while all before it do. -/
structure FirstBroken (r : Request) (rule : Rule) : Prop where
  broken : ¬ rule.Holds r
  before : ∀ earlier : Rule, earlier.place < rule.place → earlier.Holds r

theorem agreement_holds_iff {r : Request} (word : CommandWord r.cmd) :
    agreement.Holds r ↔ ∀ lettered ∈ word.letter.target?, ∀ name ∈ r.target,
      Text.lower name = lettered.name :=
  ⟨fun h => h word, fun h other => Subsingleton.elim word other ▸ h⟩

theorem value_holds_iff {r : Request} (word : CommandWord r.cmd) :
    value.Holds r ↔ (word.name.verb = .set ∨ word.name.verb = .update →
      ∃ value ∈ r.value, value ≠ "") := by
  have hname : word.name = .set ∨ word.name = .update ∨ word.name = .mod ↔
      word.name.verb = .set ∨ word.name.verb = .update := by
    cases word.name <;> decide
  rw [← hname]
  exact ⟨fun h => h word, fun h other => Subsingleton.elim word other ▸ h⟩

end Rule

variable {r : Request} {target : Target} {command : Command} {malformed : Malformed}

theorem resolves_ok {word : CommandWord r.cmd} (h : r.Resolves word.letter.target? (.ok target)) :
    word.Addresses r.target target ∧ Rule.target.Holds r ∧ Rule.agreement.Holds r := by
  rw [Rule.agreement_holds_iff word]
  cases h with
  | lettered hletter hnames =>
    refine ⟨.lettered hletter, fun name hname => ⟨target, hnames name hname⟩, ?_⟩
    intro lettered hlettered
    cases hletter.symm.trans hlettered
    exact hnames
  | @named name _ hletter hname hlower =>
    refine ⟨hname ▸ .named hletter hlower, ?_, ?_⟩
    · intro other hother
      cases hname.symm.trans hother
      exact ⟨target, hlower⟩
    · intro lettered hlettered
      cases hletter.symm.trans hlettered
  | unnamed hletter hname =>
    refine ⟨hname ▸ .unnamed hletter, ?_, ?_⟩
    · intro other hother
      cases hname.symm.trans hother
    · intro lettered hlettered
      cases hletter.symm.trans hlettered

theorem resolves_error {word : CommandWord r.cmd}
    (h : r.Resolves word.letter.target? (.error malformed)) :
    ∃ rule : Rule, rule.FirstBroken r ∧ rule.Says r malformed.message := by
  cases h with
  | unknown hname hunknown =>
    refine ⟨.target, ⟨?_, ?_⟩, .target hname⟩
    · intro hholds
      obtain ⟨target, hlower⟩ := hholds _ hname
      exact hunknown target hlower
    · intro earlier hplace
      cases earlier with
      | command => exact ⟨word⟩
      | _ => exact absurd hplace (by decide)
  | @conflicting name lettered named hletter hname hlower hne =>
    refine ⟨.agreement, ⟨?_, ?_⟩, .agreement hletter hname hlower⟩
    · intro hholds
      have hlettered := hholds word lettered hletter name hname
      rw [← Target.ofName?_eq_some_iff] at hlettered hlower
      exact hne (Option.some.inj (hlettered.symm.trans hlower))
    · intro earlier hplace
      cases earlier with
      | command => exact ⟨word⟩
      | target =>
        intro other hother
        cases hname.symm.trans hother
        exact ⟨named, hlower⟩
      | _ => exact absurd hplace (by decide)

theorem required_holds {missing : Malformed} {text : Option String} {s : String}
    (h : required missing text = .ok s) : ∃ given ∈ text, given ≠ "" := by
  obtain ⟨hsome, hne⟩ := required_eq_ok_iff.mp h
  exact ⟨s, hsome, hne⟩

theorem required_broken {missing cause : Malformed} {text : Option String}
    (h : required missing text = .error cause) : ¬ ∃ given ∈ text, given ≠ "" := by
  rintro ⟨given, hsome, hne⟩
  rw [required_eq_ok_iff.mpr ⟨hsome, hne⟩] at h
  cases h

theorem reads_ok (h : r.Reads (.ok (target, command))) :
    (∀ rule : Rule, rule.Holds r) ∧ ∃ word : CommandWord r.cmd,
      word.Addresses r.target target ∧
      command = word.name.verb.command (r.key.getD "") (r.value.getD "") := by
  cases h with
  | @command lettered _ _ hsplit hresolve hkey hvalue =>
    obtain ⟨word, rfl, hverb⟩ := CommandWord.exists_of_split? hsplit
    obtain ⟨haddress, htarget, hagree⟩ := resolves_ok (.of_eq hresolve)
    constructor
    · intro rule
      cases rule with
      | command => exact ⟨word⟩
      | target => exact htarget
      | agreement => exact hagree
      | key => exact required_holds hkey
      | value =>
        rw [Rule.value_holds_iff word, hverb]
        intro hbrings
        obtain ⟨value, hgiven⟩ := command.exists_value hbrings
        exact required_holds (hvalue value hgiven)
    · refine ⟨word, haddress, ?_⟩
      rw [hverb, eq_some_of_required hkey, Option.getD_some, Verb.command_eq]
      intro given hgiven
      rw [eq_some_of_required (hvalue given hgiven), Option.getD_some]

theorem reads_error (h : r.Reads (.error malformed)) :
    ∃ rule : Rule, rule.FirstBroken r ∧ rule.Says r malformed.message := by
  cases h with
  | unknown hsplit =>
    refine ⟨.command, ⟨?_, ?_⟩, .command⟩
    · rintro ⟨word⟩
      cases hsplit.symm.trans word.split?_eq
    · intro earlier hplace
      cases earlier <;> exact absurd hplace (by decide)
  | unresolved hsplit hresolve =>
    obtain ⟨word, rfl, -⟩ := CommandWord.exists_of_split? hsplit
    exact resolves_error (.of_eq hresolve)
  | keyless hsplit hresolve hkey =>
    obtain ⟨word, rfl, -⟩ := CommandWord.exists_of_split? hsplit
    obtain ⟨-, htarget, hagree⟩ := resolves_ok (.of_eq hresolve)
    refine ⟨.key, ⟨required_broken hkey, ?_⟩, .key⟩
    intro earlier hplace
    cases earlier with
    | command => exact ⟨word⟩
    | target => exact htarget
    | agreement => exact hagree
    | _ => exact absurd hplace (by decide)
  | valueless hsplit hresolve hkey hbrings hvalue =>
    obtain ⟨word, rfl, rfl⟩ := CommandWord.exists_of_split? hsplit
    obtain ⟨-, htarget, hagree⟩ := resolves_ok (.of_eq hresolve)
    refine ⟨.value, ⟨?_, ?_⟩, .value⟩
    · rw [Rule.value_holds_iff word]
      exact fun hholds => required_broken hvalue (hholds hbrings)
    · intro earlier hplace
      cases earlier with
      | command => exact ⟨word⟩
      | target => exact htarget
      | agreement => exact hagree
      | key => exact required_holds hkey
      | value => exact absurd hplace (by decide)

/-- A request is a command exactly if all conditions hold of it, and which command it is follows from
its fields. Of any other request the first condition that does not hold is reported. A command word
can be read in one way only. -/
theorem parse_decides (r : Request) :
    Subsingleton (CommandWord r.cmd) ∧
      ((∃ target command, r.parse = .ok (target, command)) ↔ ∀ rule : Rule, rule.Holds r) ∧
      (∀ target command, r.parse = .ok (target, command) → ∃ word : CommandWord r.cmd,
        word.Addresses r.target target ∧
          command = word.name.verb.command (r.key.getD "") (r.value.getD "")) ∧
      ∀ malformed, r.parse = .error malformed → ∃ (rule : Rule) (text : String),
        rule.FirstBroken r ∧ rule.Says r text ∧ malformed.error = .command text := by
  have hreads := r.parse_reads
  refine ⟨inferInstance, ?_, ?_, ?_⟩
  · constructor
    · rintro ⟨target, command, hparse⟩
      exact (reads_ok (hparse ▸ hreads)).1
    · intro hholds
      cases hparse : r.parse with
      | ok parsed => exact ⟨parsed.1, parsed.2, rfl⟩
      | error malformed =>
        obtain ⟨rule, hfirst, -⟩ := reads_error (hparse ▸ hreads)
        exact absurd (hholds rule) hfirst.broken
  · intro target command hparse
    exact (reads_ok (hparse ▸ hreads)).2
  · intro malformed hparse
    obtain ⟨rule, hfirst, hsays⟩ := reads_error (hparse ▸ hreads)
    exact ⟨rule, malformed.message, hfirst, hsays, rfl⟩

end Request

end TriStore
