import TriStore.CommandLine.Session
import TriStore.Proofs.Pool
import TriStore.Proofs.Printing

/-!
# Scripts run by one worker

A script can be run in two ways: line by line, or as a batch of requests on a pool. With a single
worker the two come to the same. One leaves out the lines that are no requests before it starts, the
other as it goes, and either prints a line for each of the rest.
-/

namespace TriStore

namespace Executor

theorem runInTurn_jobs (s : Store) (requests : List Request) :
    Pool.runInTurn s (requests.map job) =
      ((s.responses requests).map some, s.served requests) := by
  induction requests generalizing s with
  | nil => rfl
  | cons r requests ih =>
    rw [List.map_cons, Pool.runInTurn, Store.responses, Store.served]
    simp only [job, ih, List.map_cons]

theorem executeAll_single (s : Store) (requests : List Request) :
    let e : Executor := ⟨s, 0, [], [none], []⟩
    (e.executeAll requests).1 = s.responses requests ∧
      (e.executeAll requests).2.shared = s.served requests := by
  intro e
  obtain ⟨hresults, hshared⟩ := Pool.runAll_single s (requests.map job)
  rw [runInTurn_jobs] at hresults hshared
  constructor
  · simp only [executeAll, e, hresults, List.map_map, Function.comp_def, Option.getD_some,
      List.map_id']
  · exact hshared

end Executor

namespace CommandLine

deriving instance DecidableEq for Action, Options

/-- The lines of a script that are neither blank nor comments. -/
def commandLines (script : String) : List String :=
  (Text.lines script).filter fun line =>
    !(Text.trim line).isEmpty && !(Text.trim line).startsWith "#"

def commands (script : String) : List String := (commandLines script).map Text.trim

def isInquiry (line : String) : Bool :=
  ["STATS", "SCAN"].contains (Text.upper ((Text.words line).headD ""))

def options? (files : Files) (args : List String) : Option Options :=
  (Arguments.read args).toOption.bind fun arguments => (Options.read files arguments).toOption

/-- What is printed when requests are executed one after another and stats follow. -/
def transcript (s : Store) (requests : List Request) : List String :=
  (s.responses requests).map (·.line) ++ (s.served requests).stats.report

theorem requests_eq (script : String) :
    requests script = (commands script).map Request.ofLine := by
  simp only [requests, commands, commandLines, List.filter_map, Function.comp_def]

theorem map_trim_commands (script : String) :
    (commands script).map Text.trim = commands script := by
  simp only [commands, List.map_map, Function.comp_def, Text.trim_trim]

theorem ofLine_of_not_inquiry {line : String} (h : isInquiry line = false) :
    Statement.ofLine line = .request (.ofLine line) := by
  simp only [isInquiry, List.contains_cons, List.contains_nil, Bool.or_false, Bool.or_eq_false_iff,
    beq_eq_false_iff_ne, ne_eq] at h
  simp only [Statement.ofLine, h, if_false]

theorem exec_stats (s : Store) : exec s ["STATS"] = (s.stats.report, s) := by
  have htrim : Text.trim "STATS" = "STATS" := rfl
  have hstats : Statement.ofLine "STATS" = .stats := rfl
  simp [exec, htrim, hstats, Statement.run]

theorem exec_append (s : Store) {lines : List String} (more : List String)
    (h : ∀ line ∈ lines, (Text.trim line).isEmpty = false ∧ isInquiry (Text.trim line) = false) :
    let requests := lines.map fun line => Request.ofLine (Text.trim line)
    exec s (lines ++ more) =
      ((s.responses requests).map (·.line) ++ (exec (s.served requests) more).1,
        (exec (s.served requests) more).2) := by
  induction lines generalizing s with
  | nil => rfl
  | cons line lines ih =>
    obtain ⟨⟨hempty, hinquiry⟩, hlines⟩ := List.forall_mem_cons.mp h
    rw [List.cons_append, exec, if_neg (by simp [hempty]), ofLine_of_not_inquiry hinquiry]
    simp only [Statement.run, ih _ hlines, List.map_cons, Store.responses, Store.served,
      List.cons_append, List.nil_append]

theorem mem_commands {script line : String} (h : line ∈ commands script) :
    line.isEmpty = false := by
  obtain ⟨untrimmed, hmem, rfl⟩ := List.mem_map.mp h
  have hkept := List.of_mem_filter hmem
  simp only [Bool.and_eq_true, Bool.not_eq_true'] at hkept
  exact hkept.1

theorem exec_commands (s : Store) {script : String} {lines : List String}
    (hlines : lines.map Text.trim = commands script)
    (h : ∀ line ∈ commands script, isInquiry line = false) :
    (exec s (lines ++ ["STATS"])).1 = transcript s (requests script) := by
  have hkept : ∀ line ∈ lines,
      (Text.trim line).isEmpty = false ∧ isInquiry (Text.trim line) = false := by
    intro line hline
    have hmem : Text.trim line ∈ commands script := hlines ▸ List.mem_map_of_mem hline
    exact ⟨mem_commands hmem, h _ hmem⟩
  have hrequests : lines.map (fun line => Request.ofLine (Text.trim line)) = requests script := by
    rw [requests_eq, ← hlines, List.map_map, Function.comp_def]
  rw [exec_append s ["STATS"] hkept, hrequests, exec_stats, transcript]

theorem replay_single (s : Store) (script : String) :
    replay ⟨s, 0, [], [none], []⟩ script = transcript s (requests script) := by
  obtain ⟨hresponses, hshared⟩ := Executor.executeAll_single s (requests script)
  simp only [replay, hresponses, hshared, transcript]

theorem length_transcript (s : Store) (requests : List Request) :
    (transcript s requests).length = requests.length + 3 := by
  rw [transcript, List.length_append, List.length_map, Store.length_responses]
  rfl

theorem oneLine_transcript {c : Config} {s : Store} (h : Store.ofConfig c = .ok s)
    (script : String) : ∀ line ∈ transcript s (requests script), Text.OneLine line := by
  intro line hline
  have hrequests : ∀ r ∈ requests script, r.Printable := by
    intro r hr
    obtain ⟨command, -, rfl⟩ := List.mem_map.mp hr
    exact Request.ofLine_printable command
  rcases List.mem_append.mp hline with hline | hline
  · obtain ⟨response, hresponse, rfl⟩ := List.mem_map.mp hline
    exact (Store.printable_ofConfig h).responses (.new h) hrequests response hresponse
  · exact Stats.oneLine_report _ line hline

theorem readText_toUTF8 (s : String) : readText (some s.toUTF8) = .ok s := by
  have hvalid : s.toUTF8.IsValidUTF8 := s.isValidUTF8
  simp only [readText, String.fromUTF8?, dif_pos hvalid]
  rfl

theorem run_of_options {files : Files} {args : List String} {o : Options}
    (h : options? files args = some o) : run files args =
      match act files o with
      | .ok lines => .done lines
      | .error e => .failed e.message := by
  unfold options? at h
  unfold run
  cases hread : Arguments.read args with
  | error stop =>
    rw [hread] at h
    cases h
  | ok arguments =>
    rw [hread] at h
    cases hoptions : Options.read files arguments with
    | error cause =>
      simp only [Except.toOption, Option.bind_some, hoptions] at h
      cases h
    | ok options =>
      simp only [Except.toOption, Option.bind_some, hoptions] at h
      cases h
      change (match (Options.read files arguments).bind (act files) with
        | .ok lines => Outcome.done lines
        | .error e => .failed e.message) = _
      rw [hoptions]
      rfl

/-- An action that prints lines and ends well, whichever arguments ask for it; the kind of pool that
they name for a script plays no part. -/
structure Prints (files : Files) (o : Options) (printed : List String) : Prop where
  act_eq : act files o = .ok printed
  run_eq : ∀ args, options? files args = some o → run files args = .done printed

theorem prints_of_act {files : Files} {o : Options} {printed : List String}
    (h : act files o = .ok printed) : Prints files o printed where
  act_eq := h
  run_eq := fun args hargs => by rw [run_of_options hargs, h]

section Act
variable {c : Config} {s : Store} {files : Files} {script : String}

theorem act_replay {path : String} (hstore : Store.ofConfig c = .ok s)
    (hfile : files path = some script.toUTF8) :
    act files ⟨c, .replay path 1⟩ = .ok (transcript s (requests script)) := by
  rw [← replay_single, act, hstore]
  simp only [hfile, readText_toUTF8]
  rfl

theorem act_exec {lines : List String} (hstore : Store.ofConfig c = .ok s)
    (htrim : lines.map Text.trim = commands script)
    (hlines : ∀ line ∈ commands script, isInquiry line = false) :
    act files ⟨c, .exec (lines ++ ["STATS"])⟩ = .ok (transcript s (requests script)) := by
  rw [← exec_commands s htrim hlines, act, hstore]
  rfl

end Act

/-- A script that one worker runs prints what its lines print when they are run one after another
and the stats are asked for at the end. Each line that is neither blank nor a comment is answered by
one line. -/
theorem replay_eq_exec {c : Config} {files : Files} {path script : String}
    (hconfig : c.validate = .ok ()) (hfile : files path = some script.toUTF8)
    (hlines : ∀ line ∈ commands script, isInquiry line = false) :
    ∃ s printed, Store.ofConfig c = .ok s ∧
      printed = transcript s ((commands script).map Request.ofLine) ∧
      Prints files ⟨c, .replay path 1⟩ printed ∧
      Prints files ⟨c, .exec (commands script ++ ["STATS"])⟩ printed ∧
      Prints files ⟨c, .exec (commandLines script ++ ["STATS"])⟩ printed ∧
      printed.length = (commands script).length + 3 ∧
      (∀ line ∈ printed, Text.OneLine line) ∧
      Text.lines (Outcome.done printed).output = printed ++ [""] := by
  obtain ⟨s, hstore⟩ := Store.exists_ofConfig hconfig
  have hline := oneLine_transcript hstore script
  have hcommands := map_trim_commands script
  refine ⟨s, transcript s (requests script), hstore, by rw [requests_eq],
    prints_of_act (act_replay hstore hfile), prints_of_act (act_exec hstore hcommands hlines),
    prints_of_act (act_exec hstore rfl hlines), ?_, hline, ?_⟩
  · rw [length_transcript, requests_eq, List.length_map]
  · exact Text.lines_join fun line hmem => (hline line hmem).not_mem_lineFeed

/-- A script with a comment, an empty line, several kinds of blanks and a line that is no command,
on either pool. -/
theorem replay_eq_exec_of_three :
    let script := "# fill\r\nset\u00a0a 1 \u2003 2\r\n\n\t bogus\n  get a"
    let files : Files := fun _ => some script.toUTF8
    let sizes := ["--array-capacity", "2", "--hash-capacity", "2", "--rbtree-capacity", "2"]
    ∃ printed,
      (∀ pool ∈ ["shared", "rayon"],
        run files (sizes ++ ["replay", "script", "--threads", "1", "--pool", pool]) =
          .done printed) ∧
      run files (sizes ++ ["exec", "--"] ++ commands script ++ ["STATS"]) = .done printed ∧
      printed = ["OK Set successfully", "ERROR Unknown command", "OK 1 2",
        "array count=1 remaining=1 max=2", "hash count=0 remaining=2 max=2",
        "rbtree count=0 remaining=2 max=2"] := by
  intro script files sizes
  have hnew : Store.ofConfig (.uniform 2) = .ok ⟨.empty 2, .empty 2 2, .empty 2⟩ := rfl
  have hpools : ∀ pool ∈ ["shared", "rayon"],
      options? files (sizes ++ ["replay", "script", "--threads", "1", "--pool", pool]) =
        some ⟨.uniform 2, .replay "script" 1⟩ := by
    decide +kernel
  obtain ⟨s, printed, hstore, hprinted, hreplay, hexec, -, -, -, -⟩ :=
    @replay_eq_exec (.uniform 2) files "script" script rfl rfl (by decide +kernel)
  rw [hnew] at hstore
  cases hstore
  refine ⟨printed, fun pool hpool => hreplay.run_eq _ (hpools pool hpool),
    hexec.run_eq _ (by decide +kernel), ?_⟩
  rw [hprinted]
  decide +kernel

end CommandLine

end TriStore
