import TriStore.Proofs.Serving
import TriStore.Proofs.Text

/-!
# What is printed for a response

The line of a response is made of fixed texts, of texts of the request and of a value that some
earlier request has set. None of them has an end of a line in it if no request has, which holds of
requests that are read from lines: reading takes all blanks out but the spaces within a value.
-/

namespace TriStore

open Text (OneLine)

theorem Target.oneLine_name (target : Target) : OneLine target.name := by
  cases target <;> decide

namespace Request

/-- A request whose texts that may be printed are one line each. -/
structure Printable (r : Request) : Prop where
  cmd : OneLine r.cmd
  value : ∀ value ∈ r.value, OneLine value
  target : ∀ name ∈ r.target, OneLine name

theorem ofLine_printable (line : String) : (ofLine line).Printable where
  cmd := by
    cases hfirst : (Text.words line)[0]? with
    | none =>
      simp only [ofLine, hfirst]
      exact .empty
    | some word =>
      simp only [ofLine, hfirst]
      exact .of_mem_words (List.mem_of_getElem? hfirst)
  value := by
    intro value hvalue
    simp only [ofLine] at hvalue
    split at hvalue
    · cases hvalue
    · cases hvalue
      apply OneLine.intercalate_space
      intro word hword
      exact .of_mem_words (List.mem_of_mem_drop hword)
  target := by
    intro name hname
    cases hname

variable {r : Request}

namespace Printable

theorem of_resolveTarget (h : r.Printable) {lettered : Option Target} {malformed : Malformed}
    (hresolve : r.resolveTarget lettered = .error malformed) : OneLine malformed.message := by
  have hunknown : OneLine "Unknown target: " := by decide
  have hconflict : OneLine "Conflicting target: " := by decide
  have haddresses : OneLine " addresses " := by decide
  have hbut : OneLine " but target is " := by decide
  cases Resolves.of_eq hresolve with
  | unknown hname _ => exact hunknown.append (h.target _ hname)
  | @conflicting _ asked named =>
    exact ((((hconflict.append h.cmd).append haddresses).append asked.oneLine_name).append
      hbut).append named.oneLine_name

theorem of_error (h : r.Printable) {malformed : Malformed} (hparse : r.parse = .error malformed) :
    OneLine malformed.message := by
  have hreads := r.parse_reads
  rw [hparse] at hreads
  cases hreads with
  | unknown hsplit => decide
  | unresolved hsplit hresolve => exact h.of_resolveTarget hresolve
  | keyless hsplit hresolve hkey => decide
  | valueless hsplit hresolve hkey hverb hvalue => decide

theorem of_ok (h : r.Printable) {target : Target} {command : Command}
    (hparse : r.parse = .ok (target, command)) : ∀ value ∈ command.value?, OneLine value := by
  have hreads := r.parse_reads
  rw [hparse] at hreads
  cases hreads with
  | command hsplit hresolve hkey hvalue =>
    intro value hmem
    exact h.value value (eq_some_of_required (hvalue value hmem))

end Printable

end Request

namespace LawfulTable
variable {τ : Type} [Table τ] [LawfulTable τ] {t : τ}

/-- A record after a command was there before it, or came with the command. -/
theorem mem_perform (h : Sound t) (command : Command) {r : Record}
    (hr : r ∈ Table.toList (Table.perform t command.call).2) :
    command.key = r.key ∧ command.value? = some r.value ∨ r ∈ Table.toList t := by
  cases command with
  | set key value =>
    have hinserts := inserts h key value
    simp only [Command.call, Table.perform] at hr
    generalize Table.insert t key value = result at hinserts hr
    cases hinserts with
    | done hnew hroom ht' hcap hp =>
      rcases List.mem_cons.mp (hp.mem_iff.mp hr) with rfl | hr
      · exact Or.inl ⟨rfl, rfl⟩
      · exact Or.inr hr
    | present => exact Or.inr hr
    | full => exact Or.inr hr
  | update key value =>
    have hreplaces := replaces h key value
    simp only [Command.call, Table.perform] at hr
    generalize Table.replace t key value = result at hreplaces hr
    cases hreplaces with
    | done ht' hcap hp hp' =>
      rcases List.mem_cons.mp (hp'.mem_iff.mp hr) with rfl | hr
      · exact Or.inl ⟨rfl, rfl⟩
      · exact Or.inr (hp.mem_iff.mpr (List.mem_cons_of_mem _ hr))
    | absent => exact Or.inr hr
  | del key =>
    have herases := erases h key
    simp only [Command.call, Table.perform] at hr
    generalize Table.erase t key = result at herases hr
    cases herases with
    | done ht' hcap hp => exact Or.inr (hp.mem_iff.mpr (List.mem_cons_of_mem _ hr))
    | absent => exact Or.inr hr
  | get => exact Or.inr hr
  | exist => exact Or.inr hr

theorem mem_of_found (h : Sound t) {command : Command} {value : String}
    (hfound : (Table.perform t command.call).1 = .found (some value)) :
    ∃ r ∈ Table.toList t, r.value = value := by
  cases command with
  | get key =>
    have hget : Table.get? t key = some value := Answer.found.inj hfound
    exact ⟨⟨key, value⟩, (get?_eq_some_iff h key value).mp hget, rfl⟩
  | set | del | update =>
    simp only [Command.call, Table.perform] at hfound
    split at hfound <;> cases hfound
  | exist => cases hfound

end LawfulTable

namespace Response

/-- What a response says is the value that was found or a fixed text. -/
theorem oneLine_ofAnswer (target : Target) (command : Command) {answer : Answer}
    (h : ∀ value, answer = .found (some value) → OneLine value) :
    OneLine (ofAnswer target command answer).message := by
  have hrefused (cause : Refusal) : OneLine (ofError (.refused cause) target).message := by
    cases cause <;> cases target <;> decide
  unfold ofAnswer
  split
  · decide
  · next value => exact h value rfl
  · decide
  · decide
  · decide
  · exact hrefused _
  · exact hrefused _

theorem oneLine_line {response : Response} (h : OneLine response.message) :
    OneLine response.line := by
  have hstatus : OneLine response.status.name := by cases response.status <;> decide
  exact (hstatus.append .space).append h

end Response

namespace Stats

theorem oneLine_toString (n : Nat) : OneLine (toString n) := by
  intro c hc hblank
  rw [Nat.toString_eq_ofList_toDigits, String.toList_ofList] at hc
  have hdigit := Nat.isDigit_of_mem_toDigits (by decide) (by decide) hc
  have hrange : 48 ≤ c.toNat ∧ c.toNat ≤ 57 := by
    simpa [Char.isDigit, UInt32.le_iff_toNat_le] using hdigit
  simp [Text.isBlank, Text.blankRanges] at hblank
  omega

theorem oneLine_report (stats : Stats) : ∀ line ∈ stats.report, OneLine line := by
  have hcount : OneLine " count=" := by decide
  have hremaining : OneLine " remaining=" := by decide
  have hmax : OneLine " max=" := by decide
  intro line hline
  obtain ⟨target, -, rfl⟩ := List.mem_map.mp hline
  exact (((((target.oneLine_name.append hcount).append (oneLine_toString _)).append hremaining).append
    (oneLine_toString _)).append hmax).append (oneLine_toString _)

end Stats

namespace Store
variable {s : Store} {r : Request}

def Printable (s : Store) : Prop := ∀ target, ∀ r ∈ s.toList target, OneLine r.value

theorem printable_ofConfig {c : Config} (h : ofConfig c = .ok s) : s.Printable := by
  intro target r hr
  rw [toList_ofConfig h] at hr
  cases hr

theorem mem_toList_execute {c : Config} (hreach : Reachable c s) {target : Target} {entry : Record}
    (h : entry ∈ (s.execute r).2.toList target) :
    entry ∈ s.toList target ∨ ∃ command, r.parse = .ok (target, command) ∧
      command.key = entry.key ∧ command.value? = some entry.value := by
  cases hparse : r.parse with
  | error malformed =>
    rw [execute_of_error s hparse] at h
    exact Or.inl h
  | ok parsed =>
    obtain ⟨asked, command⟩ := parsed
    rw [execute_of_ok s asked hparse, toList_eq] at h
    by_cases htarget : target = asked
    · subst htarget
      rw [table_setTable] at h
      rcases LawfulTable.mem_perform (hreach.sound target).1 command h with ⟨hkey, hvalue⟩ | h
      · exact Or.inr ⟨command, rfl, hkey, hvalue⟩
      · exact Or.inl ((s.toList_eq target).symm ▸ h)
    · rw [table_setTable_of_ne s asked htarget, ← toList_eq] at h
      exact Or.inl h

theorem Printable.execute {c : Config} (hs : s.Printable) (hreach : Reachable c s)
    (hr : r.Printable) : OneLine (s.execute r).1.line ∧ (s.execute r).2.Printable := by
  constructor
  · cases hparse : r.parse with
    | error malformed =>
      rw [execute_of_error s hparse]
      exact Response.oneLine_line (hr.of_error hparse)
    | ok parsed =>
      obtain ⟨target, command⟩ := parsed
      rw [execute_of_ok s target hparse]
      apply Response.oneLine_line
      apply Response.oneLine_ofAnswer
      intro value hfound
      obtain ⟨r, hr, rfl⟩ := LawfulTable.mem_of_found (hreach.sound target).1 hfound
      rw [← toList_eq] at hr
      exact hs target r hr
  · intro target entry hentry
    rcases mem_toList_execute hreach hentry with hentry | ⟨command, hparse, -, hvalue⟩
    · exact hs target entry hentry
    · exact hr.of_ok hparse entry.value hvalue

theorem Printable.responses {c : Config} {requests : List Request} (hs : s.Printable)
    (hreach : Reachable c s) (hrequests : ∀ r ∈ requests, r.Printable) :
    ∀ response ∈ s.responses requests, OneLine response.line := by
  induction requests generalizing s with
  | nil => exact nofun
  | cons r requests ih =>
    obtain ⟨hr, hrequests⟩ := List.forall_mem_cons.mp hrequests
    obtain ⟨hline, hnext⟩ := hs.execute hreach hr
    rw [Store.responses]
    exact List.forall_mem_cons.mpr ⟨hline, ih hnext (hreach.act (.execute r)) hrequests⟩

end Store

end TriStore
