import TriStore.Request

/-!
# Requests as commands

A request is read in four steps, and `Request.Reads` says what each of them may end in: command word,
table, key and value. All that is said of the reading as a whole follows from it.
-/

namespace TriStore

theorem Target.ofName?_eq_some_iff {s : String} {target : Target} :
    ofName? s = some target ↔ Text.lower s = target.name := by
  constructor
  · intro h
    have hname := List.find?_some h
    exact (beq_iff_eq.mp hname).symm
  · intro h
    rw [ofName?, h]
    cases target <;> rfl

namespace Request
variable {r : Request}

inductive Reads (r : Request) : Except Malformed (Target × Command) → Prop where
  | unknown : Verb.split? r.cmd = none → Reads r (.error .unknownCommand)
  | unresolved {lettered : Option Target} {verb : Verb} {malformed : Malformed} :
      Verb.split? r.cmd = some (lettered, verb) →
      r.resolveTarget lettered = .error malformed → Reads r (.error malformed)
  | keyless {lettered : Option Target} {verb : Verb} {target : Target} :
      Verb.split? r.cmd = some (lettered, verb) → r.resolveTarget lettered = .ok target →
      required .keyRequired r.key = .error .keyRequired → Reads r (.error .keyRequired)
  | valueless {lettered : Option Target} {verb : Verb} {target : Target} {key : String} :
      Verb.split? r.cmd = some (lettered, verb) → r.resolveTarget lettered = .ok target →
      required .keyRequired r.key = .ok key → verb = .set ∨ verb = .update →
      required .valueRequired r.value = .error .valueRequired → Reads r (.error .valueRequired)
  | command {lettered : Option Target} {target : Target} {command : Command} :
      Verb.split? r.cmd = some (lettered, command.verb) → r.resolveTarget lettered = .ok target →
      required .keyRequired r.key = .ok command.key →
      (∀ value ∈ command.value?, required .valueRequired r.value = .ok value) →
      Reads r (.ok (target, command))

inductive Resolves (r : Request) (lettered : Option Target) : Except Malformed Target → Prop where
  | unknown {name : String} : r.target = some name →
      (∀ target : Target, Text.lower name ≠ target.name) →
      Resolves r lettered (.error (.unknownTarget name))
  | conflicting {name : String} {target named : Target} : lettered = some target →
      r.target = some name → Text.lower name = named.name → target ≠ named →
      Resolves r lettered (.error (.conflictingTarget r.cmd target named))
  | lettered {target : Target} : lettered = some target →
      (∀ name ∈ r.target, Text.lower name = target.name) → Resolves r lettered (.ok target)
  | named {name : String} {target : Target} : lettered = none → r.target = some name →
      Text.lower name = target.name → Resolves r lettered (.ok target)
  | unnamed : lettered = none → r.target = none → Resolves r lettered (.ok .array)

theorem Resolves.of_eq {lettered : Option Target} {result : Except Malformed Target}
    (h : r.resolveTarget lettered = result) : r.Resolves lettered result := by
  subst h
  unfold resolveTarget explicitTarget
  cases hname : r.target with
  | none =>
    cases lettered with
    | none => exact .unnamed rfl hname
    | some target =>
      refine .lettered rfl ?_
      rw [hname]
      exact nofun
  | some name =>
    dsimp only
    cases hnamed : Target.ofName? name with
    | none =>
      refine .unknown hname fun target heq => ?_
      rw [Target.ofName?_eq_some_iff.mpr heq] at hnamed
      cases hnamed
    | some named =>
      rw [Target.ofName?_eq_some_iff] at hnamed
      cases lettered with
      | none => exact .named rfl hname hnamed
      | some target =>
        simp only [bind, Except.bind]
        split
        · next heq =>
          subst heq
          refine .lettered rfl fun other hother => ?_
          rw [hname] at hother
          cases hother
          exact hnamed
        · next hne => exact .conflicting rfl hname hnamed hne

theorem required_cases (missing : Malformed) (text : Option String) :
    required missing text = .error missing ∨ ∃ s, required missing text = .ok s := by
  unfold required
  split
  · split
    · exact Or.inl rfl
    · exact Or.inr ⟨_, rfl⟩
  · exact Or.inl rfl

theorem required_eq_ok_iff {missing : Malformed} {text : Option String} {s : String} :
    required missing text = .ok s ↔ text = some s ∧ s ≠ "" := by
  cases text with
  | none => exact ⟨nofun, nofun⟩
  | some t =>
    rw [required, Option.some.injEq]
    constructor
    · intro h
      split at h
      · cases h
      · next hne =>
        cases h
        exact ⟨rfl, fun heq => hne (heq ▸ rfl)⟩
    · rintro ⟨rfl, hne⟩
      rw [if_neg (mt String.isEmpty_iff.mp hne)]

theorem eq_some_of_required {missing : Malformed} {text : Option String} {s : String}
    (h : required missing text = .ok s) : text = some s :=
  (required_eq_ok_iff.mp h).1

theorem parse_reads (r : Request) : Reads r r.parse := by
  unfold parse
  cases hsplit : Verb.split? r.cmd with
  | none => exact .unknown hsplit
  | some found =>
    obtain ⟨lettered, verb⟩ := found
    simp only [bind, Except.bind]
    cases hresolve : r.resolveTarget lettered with
    | error malformed => exact .unresolved hsplit hresolve
    | ok target =>
      dsimp only
      rcases required_cases .keyRequired r.key with hkey | ⟨key, hkey⟩
      · rw [hkey]
        exact .keyless hsplit hresolve hkey
      · rw [hkey]
        cases verb with
        | get | del | exist => exact .command hsplit hresolve hkey nofun
        | set | update =>
          dsimp only
          rcases required_cases .valueRequired r.value with hvalue | ⟨value, hvalue⟩
          · rw [hvalue]
            exact .valueless hsplit hresolve hkey (by simp) hvalue
          · rw [hvalue]
            refine .command hsplit hresolve hkey ?_
            intro brought hbrought
            cases hbrought
            exact hvalue

theorem parse_eq_ok {lettered : Option Target} {target : Target} {command : Command}
    (hsplit : Verb.split? r.cmd = some (lettered, command.verb))
    (hresolve : r.resolveTarget lettered = .ok target)
    (hkey : required .keyRequired r.key = .ok command.key)
    (hvalue : ∀ value ∈ command.value?, required .valueRequired r.value = .ok value) :
    r.parse = .ok (target, command) := by
  unfold parse
  rw [hsplit]
  simp only [bind, Except.bind, hresolve, hkey]
  cases command with
  | set key value | update key value =>
    simp only [Command.verb, hvalue value rfl]
    rfl
  | get | del | exist => rfl

theorem resolveTarget_of_unnamed (h : r.target = none) (lettered : Option Target) :
    r.resolveTarget lettered = .ok (lettered.getD .array) := by
  unfold resolveTarget explicitTarget
  rw [h]
  cases lettered <;> rfl

end Request

end TriStore
