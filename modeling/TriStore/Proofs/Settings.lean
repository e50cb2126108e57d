import TriStore.CommandLine.Session
import TriStore.Proofs.Replay

/-!
# Sizes from settings and files

Each size of a store is the one of its setting, or else the one of the configuration file, or else the
standard one; the number of chains that nobody sets is the capacity that has come out for the hash
table. A store is built if all four sizes are allowed. Otherwise the first one that is not is named
and nothing else is printed.
-/

namespace TriStore

namespace Config

def Allowed (size : Nat) : Prop := 1 ≤ size ∧ size ≤ 16777216

theorem checkSize_of_allowed {size : String × Nat} (h : Allowed size.2) : checkSize size = none := by
  have hmax : maxCapacity = 16777216 := rfl
  have hzero : size.2 ≠ 0 := Nat.ne_of_gt h.1
  have hle : ¬ maxCapacity < size.2 := hmax ▸ Nat.not_lt.mpr h.2
  rw [checkSize, if_neg hzero, if_neg hle]

def fault (name : String) (size : Nat) : Invalid := if size = 0 then .zero name else .tooLarge name size

theorem checkSize_of_not_allowed {name : String} {size : Nat} (h : ¬ Allowed size) :
    checkSize (name, size) = some (fault name size) := by
  have hmax : maxCapacity = 16777216 := rfl
  unfold checkSize fault
  by_cases hzero : size = 0
  · rw [if_pos hzero, if_pos hzero]
  · have hlt : maxCapacity < size := by
      rw [Allowed] at h
      omega
    rw [if_neg hzero, if_neg hzero, if_pos hlt]

theorem validate_of_allowed {c : Config} (h : ∀ size ∈ c.sizes, Allowed size.2) :
    c.validate = .ok () := by
  have hnone : c.sizes.findSome? checkSize = none :=
    List.findSome?_eq_none_iff.mpr fun size hsize => checkSize_of_allowed (h size hsize)
  rw [validate, hnone]

theorem validate_of_first {c : Config} {before after : List (String × Nat)} {name : String}
    {size : Nat} (hsizes : c.sizes = before ++ (name, size) :: after)
    (hbefore : ∀ other ∈ before, Allowed other.2) (h : ¬ Allowed size) :
    c.validate = .error (fault name size) := by
  have hnone : before.findSome? checkSize = none :=
    List.findSome?_eq_none_iff.mpr fun other hother => checkSize_of_allowed (hbefore other hother)
  have hsome : c.sizes.findSome? checkSize = some (fault name size) := by
    rw [hsizes, List.findSome?_append, hnone, Option.none_or, List.findSome?_cons,
      checkSize_of_not_allowed h]
  rw [validate, hsome]

/-- If some size is not allowed there is a first one. -/
theorem exists_first {sizes : List (String × Nat)} (h : ¬ ∀ size ∈ sizes, Allowed size.2) :
    ∃ before name size after, sizes = before ++ (name, size) :: after ∧
      (∀ other ∈ before, Allowed other.2) ∧ ¬ Allowed size := by
  induction sizes with
  | nil => exact absurd (fun _ hsize => absurd hsize List.not_mem_nil) h
  | cons first sizes ih =>
    by_cases hfirst : Allowed first.2
    · have hrest : ¬ ∀ size ∈ sizes, Allowed size.2 := fun hrest =>
        h (List.forall_mem_cons.mpr ⟨hfirst, hrest⟩)
      obtain ⟨before, name, size, after, rfl, hbefore, hsize⟩ := ih hrest
      exact ⟨first :: before, name, size, after, rfl, List.forall_mem_cons.mpr ⟨hfirst, hbefore⟩,
        hsize⟩
    · exact ⟨[], first.1, first.2, sizes, rfl, fun _ hother => absurd hother List.not_mem_nil, hfirst⟩

def complaint (name : String) (size : Nat) : String :=
  name ++ if size = 0 then " must be positive"
    else " must be at most 16777216, got " ++ toString size

theorem error_fault (name : String) (size : Nat) :
    (fault name size).error = .config (complaint name size) := by
  have hmax : toString maxCapacity = "16777216" := by decide +kernel
  have hbound : " must be at most " ++ "16777216" ++ ", got " = " must be at most 16777216, got " := by
    decide
  unfold fault complaint
  split
  · rfl
  · rw [Invalid.error, Invalid.message, hmax, ← hbound]
    simp only [String.append_assoc]

end Config

namespace CommandLine

/-- Settings with their values, and the arguments in which they stand: each as one argument with an
equals sign or as two. -/
inductive Spells : List (String × String) → List String → Prop where
  | nil : Spells [] []
  | joined {settings : List (String × String)} {args : List String} {name value : String} :
      value.toList.head? ≠ some '=' → Spells settings args →
      Spells ((name, value) :: settings) (("--" ++ name ++ "=" ++ value) :: args)
  | apart {settings : List (String × String)} {args : List String} {name value : String} :
      isMarked value = false → Spells settings args →
      Spells ((name, value) :: settings) (("--" ++ name) :: value :: args)

namespace Form
variable {form : Form} {name value : String}

/-- A name of a setting that can be told from the dashes before it and the equals sign behind it. -/
structure Knows (form : Form) (name : String) : Prop where
  known : form.settings.any (·.name == name) = true
  exists_cons : ∃ c cs, name.toList = c :: cs ∧ c ≠ '-'
  no_equals : ∀ c ∈ name.toList, (c != '=') = true

def assigned : Option String → List Char
  | none => []
  | some value => '=' :: value.toList

namespace Knows

theorem readLong_assigned (h : form.Knows name) {value : Option String}
    (hvalue : ∀ s ∈ value, s.toList.head? ≠ some '=') :
    form.readLong (name.toList ++ assigned value) = .ok (name, value) := by
  obtain ⟨c, more, hname, hc⟩ := h.exists_cons
  have hdashes : (name.toList ++ assigned value).dropWhile (· == '-') =
      name.toList ++ assigned value := by
    rw [hname, List.cons_append, List.dropWhile_cons_of_neg (by simpa using hc)]
  rw [readLong, hdashes, List.takeWhile_append_of_pos h.no_equals,
    List.dropWhile_append_of_pos h.no_equals]
  cases value with
  | none =>
    simp only [assigned, List.takeWhile_nil, List.dropWhile_nil, List.append_nil,
      String.ofList_toList, h.known, if_true]
  | some s =>
    have hs : ('=' :: s.toList).dropWhile (· == '=') = s.toList := by
      rw [List.dropWhile_cons_of_pos (by decide)]
      cases hcs : s.toList with
      | nil => rfl
      | cons d cs =>
        have hd := hvalue s rfl
        rw [hcs] at hd
        rw [List.dropWhile_cons_of_neg (by simpa using hd)]
    rw [assigned, List.takeWhile_cons_of_neg (by decide), List.dropWhile_cons_of_neg (by decide),
      List.append_nil]
    simp only [hs, String.ofList_toList, h.known, if_true]

theorem readMarked_joined (h : form.Knows name) (hvalue : value.toList.head? ≠ some '=') :
    form.readMarked ("--" ++ name ++ "=" ++ value) = .ok (name, some value) := by
  have harg : ("--" ++ name ++ "=" ++ value).toList =
      '-' :: '-' :: (name.toList ++ assigned (some value)) := by
    simp [String.toList_append, assigned]
  rw [readMarked, harg]
  exact h.readLong_assigned (by simpa using hvalue)

theorem readMarked_apart (h : form.Knows name) :
    form.readMarked ("--" ++ name) = .ok (name, none) := by
  have harg : ("--" ++ name).toList = '-' :: '-' :: (name.toList ++ assigned none) := by
    simp [String.toList_append, assigned]
  rw [readMarked, harg]
  exact h.readLong_assigned (by simp)

theorem isMarked_append (h : form.Knows name) (more : String) :
    isMarked ("--" ++ name ++ more) = true ∧ "--" ++ name ++ more ≠ "--" := by
  obtain ⟨c, cs, hname, -⟩ := h.exists_cons
  constructor
  · rw [isMarked, String.toList_append, String.toList_append]
    rfl
  · intro heq
    have hlist := congrArg String.toList heq
    rw [String.toList_append, String.toList_append, hname] at hlist
    simp at hlist

end Knows

/-- Arguments that spell settings are read as these settings. -/
theorem read_spelled {settings : List (String × String)} {args : List String}
    (h : Spells settings args) (hknown : ∀ setting ∈ settings, form.Knows setting.1) (given : Given)
    (rest : List String) : form.read given (args ++ rest) =
      form.read { given with
        settings := given.settings ++ settings.map fun setting => (setting.1, some setting.2) } rest := by
  induction h generalizing given with
  | nil => simp
  | @joined settings args name value hvalue _ ih =>
    obtain ⟨hname, hknown⟩ := List.forall_mem_cons.mp hknown
    have hmarked := hname.isMarked_append ("=" ++ value)
    rw [← String.append_assoc] at hmarked
    rw [List.cons_append, read, if_neg hmarked.2, if_pos hmarked.1, hname.readMarked_joined hvalue]
    simp only [ih hknown, Given.add, List.map_cons, List.append_assoc, List.singleton_append]
  | @apart settings args name value hvalue _ ih =>
    obtain ⟨hname, hknown⟩ := List.forall_mem_cons.mp hknown
    have hmarked := hname.isMarked_append ""
    rw [String.append_empty] at hmarked
    rw [List.cons_append, List.cons_append, read, if_neg hmarked.2, if_pos hmarked.1,
      hname.readMarked_apart]
    simp only [hvalue, Bool.false_eq_true, if_false, ih hknown, Given.add, List.map_cons,
      List.append_assoc, List.singleton_append]

end Form

def given (settings : List (String × String)) : Given :=
  ⟨settings.map fun setting => (setting.1, some setting.2), []⟩

/-- Nothing, or a command with its arguments. -/
def StartsCommand (rest : List String) : Prop :=
  ∀ name ∈ rest.head?, name ∈ generalForm.commands

theorem generalForm_knows {name : String} (h : name ∈ generalForm.settings.map (·.name)) :
    generalForm.Knows name := by
  have hall : ∀ name ∈ generalForm.settings.map (·.name),
      generalForm.settings.any (·.name == name) = true ∧
        (name.toList.head?.any (· != '-')) = true ∧ name.toList.all (· != '=') = true := by
    decide
  obtain ⟨hknown, hhead, hequals⟩ := hall name h
  refine ⟨hknown, ?_, fun c hc => List.all_eq_true.mp hequals c hc⟩
  cases hname : name.toList with
  | nil =>
    rw [hname] at hhead
    cases hhead
  | cons c cs =>
    rw [hname] at hhead
    exact ⟨c, cs, rfl, by simpa using hhead⟩

theorem read_command {rest : List String} (h : StartsCommand rest) (given : Given) :
    generalForm.read given rest = .ok (given, rest) := by
  cases rest with
  | nil => rfl
  | cons name rest =>
    have hall : ∀ name ∈ generalForm.commands,
        name ≠ "--" ∧ isMarked name = false ∧ generalForm.commands.contains name = true := by
      decide
    obtain ⟨hdashes, hmarked, hcommand⟩ := hall name (h name rfl)
    rw [Form.read, if_neg hdashes, if_neg (by simp [hmarked]), if_pos hcommand]

theorem lookup_given (settings : List (String × String)) (name : String) :
    (given settings).settings.lookup name = (settings.lookup name).map some := by
  rw [given]
  induction settings with
  | nil => rfl
  | cons setting settings ih =>
    rw [List.map_cons, List.lookup_cons, List.lookup_cons, ih]
    cases name == setting.1 <;> rfl

theorem value?_given (settings : List (String × String)) (name : String) :
    generalForm.value? (given settings) name = (settings.lookup name).or
      ((generalForm.settings.find? (·.name == name)).bind (·.standard)) := by
  rw [Form.value?, lookup_given]
  cases settings.lookup name <;> rfl

theorem forM_eq_ok {α : Type} {check : α → Except Stop Unit} {xs : List α}
    (h : ∀ x ∈ xs, check x = .ok ()) : xs.forM check = .ok () := by
  induction xs with
  | nil => rfl
  | cons x xs ih =>
    obtain ⟨hx, hxs⟩ := List.forall_mem_cons.mp h
    change (do check x; xs.forM check) = _
    rw [hx]
    exact ih hxs

theorem check_given {settings : List (String × String)} (h : (settings.map (·.1)).Nodup) :
    generalForm.check (given settings) = .ok () := by
  refine forM_eq_ok fun setting hsetting => ?_
  split
  · next hgiven =>
    have hchoices : ∀ setting ∈ generalForm.settings, setting.choices = [] := by decide
    have hallows (value : String) : setting.allows value = true := by
      rw [Setting.allows, hchoices setting hsetting]
      rfl
    have honce : (given settings).settings.countP (·.1 == setting.name) ≤ 1 := by
      have hcount := List.nodup_iff_count_le_one.mp h setting.name
      rw [List.count, List.countP_map] at hcount
      rw [given, List.countP_map]
      exact hcount
    obtain ⟨value, hvalue⟩ : ∃ value, generalForm.value? (given settings) setting.name =
        some value := by
      rw [value?_given]
      cases hlookup : settings.lookup setting.name with
      | some value => exact ⟨value, rfl⟩
      | none =>
        obtain ⟨other, hother, hname⟩ := List.any_eq_true.mp hgiven
        obtain ⟨same, hsame, rfl⟩ := List.mem_map.mp hother
        have hne := List.lookup_eq_none_iff.mp hlookup same hsame
        have hsame : same.1 = setting.name := beq_iff_eq.mp hname
        exact absurd hsame.symm (bne_iff_ne.mp hne)
    simp only [Form.checkSetting, hvalue, if_neg (Nat.not_lt.mpr honce), hallows, if_true]
  · rfl

/-- Settings in front of a command do not change how the command itself is read. -/
theorem read_settings {settings : List (String × String)} {args rest : List String}
    {arguments : Arguments} (hargs : Spells settings args)
    (hknown : ∀ setting ∈ settings, setting.1 ∈ generalForm.settings.map (·.name))
    (hnodup : (settings.map (·.1)).Nodup) (hrest : StartsCommand rest)
    (hread : Arguments.read rest = .ok arguments) :
    Arguments.read (args ++ rest) = .ok { arguments with general := given settings } := by
  have hgeneral : generalForm.read .empty (args ++ rest) = .ok (given settings, rest) := by
    rw [Form.read_spelled hargs fun setting hmem => generalForm_knows (hknown setting hmem)]
    exact read_command hrest _
  have hempty : generalForm.read .empty rest = .ok (.empty, rest) := read_command hrest _
  rw [Arguments.read, hempty] at hread
  rw [Arguments.read, hgeneral]
  simp only [bind, Except.bind] at hread ⊢
  split at hread
  · cases hread
  · next command hcommand =>
    cases hread
    rw [check_given hnodup]
    rfl

/-- The number that a setting gives, if it is given. It may stand with a plus sign or with zeros in
front. -/
def Gives (settings : List (String × String)) (name : String) : Option Nat → Prop
  | none => settings.lookup name = none
  | some n => ∃ s, settings.lookup name = some s ∧ Text.number? 0xffffffffffffffff s = some n

inductive Supplies (files : Files) (settings : List (String × String)) : Config → Prop where
  | standard : settings.lookup "config" = none → Supplies files settings .standard
  | file {path text : String} {c : Config} : settings.lookup "config" = some path →
      files path = some text.toUTF8 → Config.codec.decode text = .ok c → Supplies files settings c

/-- Settings that can be read, each given once at most, with the file and the sizes that they give. -/
structure Configures (files : Files) (settings : List (String × String)) (file : Config)
    (sizes : Overrides) : Prop where
  nodup : (settings.map (·.1)).Nodup
  known : ∀ setting ∈ settings, setting.1 ∈ generalForm.settings.map (·.name)
  file : Supplies files settings file
  arrayCapacity : Gives settings "array-capacity" sizes.arrayCapacity
  hashCapacity : Gives settings "hash-capacity" sizes.hashCapacity
  treeCapacity : Gives settings "rbtree-capacity" sizes.treeCapacity
  hashBuckets : Gives settings "hash-buckets" sizes.hashBuckets
  logLevel : ∀ s, settings.lookup "log-level" = some s → isLogLevel s = true

theorem readSize_given {settings : List (String × String)} {name : String} {size : Option Nat}
    (h : Gives settings name size)
    (hstandard : (generalForm.settings.find? (·.name == name)).bind (·.standard) = none) :
    readSize (given settings) name = .ok size := by
  rw [readSize, value?_given, hstandard, Option.or_none]
  cases size with
  | none =>
    have hlookup : settings.lookup name = none := h
    rw [hlookup]
  | some n =>
    obtain ⟨s, hlookup, hnumber⟩ := h
    rw [hlookup]
    simp only [hnumber]

theorem readConfigFile_given {files : Files} {settings : List (String × String)} {file : Config}
    (h : Supplies files settings file) : readConfigFile files (given settings) = .ok file := by
  have hstandard : (generalForm.settings.find? (·.name == "config")).bind (·.standard) = none := rfl
  rw [readConfigFile, value?_given, hstandard, Option.or_none]
  cases h with
  | standard hlookup => rw [hlookup]
  | file hlookup hfile hdecode =>
    rw [hlookup]
    simp only [Config.load, hfile, readText_toUTF8, Except.mapError, hdecode, bind, Except.bind]

theorem checkLogLevel_given {settings : List (String × String)}
    (h : ∀ s, settings.lookup "log-level" = some s → isLogLevel s = true) :
    checkLogLevel (given settings) = .ok () := by
  have hstandard : (generalForm.settings.find? (·.name == "log-level")).bind (·.standard) =
      some "warn" := rfl
  rw [checkLogLevel, value?_given, hstandard]
  cases hlookup : settings.lookup "log-level" with
  | none => rfl
  | some s => simp only [Option.some_or, h s hlookup, if_true]

section Given
variable {files : Files} {settings : List (String × String)} {file : Config} {sizes : Overrides}

/-- Settings, files and the command make up the options, each by itself. -/
theorem read_given (h : Configures files settings file sizes) {subcommand : Subcommand} {own : Given}
    {action : Action} (haction : readAction ⟨given settings, subcommand, own⟩ = .ok action) :
    Options.read files ⟨given settings, subcommand, own⟩ = .ok ⟨sizes.apply file, action⟩ := by
  have hsizes : Overrides.read (given settings) = .ok sizes := by
    simp only [Overrides.read, readSize_given h.arrayCapacity rfl, readSize_given h.hashCapacity rfl,
      readSize_given h.treeCapacity rfl, readSize_given h.hashBuckets rfl, bind, Except.bind, pure,
      Except.pure]
  simp only [Options.read, readConfigFile_given h.file, hsizes, checkLogLevel_given h.logLevel,
    haction, bind, Except.bind, pure, Except.pure]

/-- With settings that can be read, a script that one worker runs prints what its lines print when they
are run one after another, however the arguments were spelled. -/
theorem replay_eq_exec_given (h : Configures files settings file sizes)
    (hconfig : (sizes.apply file).validate = .ok ()) {path script : String} {own : Given}
    (hpath : own.operands = [path]) (hthreads : readThreads own = .ok 1)
    (hfile : files path = some script.toUTF8)
    (hlines : ∀ line ∈ commands script, isInquiry line = false) {lines : List String}
    (htrim : lines.map Text.trim = commands script) :
    ∃ s, Store.ofConfig (sizes.apply file) = .ok s ∧
      (Options.read files ⟨given settings, .replay, own⟩).bind (act files) =
        .ok (transcript s (requests script)) ∧
      (Options.read files ⟨given settings, .exec, ⟨[], lines ++ ["STATS"]⟩⟩).bind (act files) =
        .ok (transcript s (requests script)) := by
  obtain ⟨s, hstore⟩ := Store.exists_ofConfig hconfig
  have hreplay : readAction ⟨given settings, .replay, own⟩ = .ok (.replay path 1) := by
    rw [readAction, hpath, hthreads]
    rfl
  refine ⟨s, hstore, ?_, ?_⟩
  · rw [read_given h hreplay]
    exact act_replay hstore hfile
  · rw [read_given h rfl]
    change act files _ = _
    exact act_exec hstore htrim hlines

end Given

theorem options_of_settings {files : Files} {settings : List (String × String)} {file : Config}
    {sizes : Overrides} {args rest : List String} {arguments : Arguments} {action : Action}
    (h : Configures files settings file sizes) (hargs : Spells settings args)
    (hrest : StartsCommand rest) (hread : Arguments.read rest = .ok arguments)
    (haction : readAction arguments = .ok action) :
    options? files (args ++ rest) = some ⟨sizes.apply file, action⟩ := by
  have haction' : readAction { arguments with general := given settings } = .ok action := haction
  rw [options?, read_settings hargs h.known h.nodup hrest hread]
  simp only [Except.toOption, Option.bind_some, read_given h haction']

theorem act_of_fault {c : Config} {before after : List (String × Nat)} {name : String} {size : Nat}
    (hsizes : c.sizes = before ++ (name, size) :: after)
    (hbefore : ∀ other ∈ before, Config.Allowed other.2) (h : ¬ Config.Allowed size) :
    (Store.ofConfig c).mapError (·.error) = .error (.config (Config.complaint name size)) ∧
      ∀ files action, act files ⟨c, action⟩ = .error (.config (Config.complaint name size)) := by
  have hstore : (Store.ofConfig c).mapError (·.error) =
      .error (.config (Config.complaint name size)) := by
    rw [Store.ofConfig, Config.validate_of_first hsizes hbefore h, ← Config.error_fault]
    rfl
  refine ⟨hstore, fun files action => ?_⟩
  rw [act, hstore]
  rfl

theorem usage_empty {τ : Type} [Table τ] {t : τ} {capacity : Nat} (hsize : Table.size t = 0)
    (hcapacity : Table.capacity t = capacity) : Usage.ofTable t = ⟨0, capacity, capacity⟩ := by
  rw [Usage.ofTable, Table.remaining, hsize, hcapacity, Nat.sub_zero]

theorem stats_ofConfig {c : Config} {s : Store} (h : Store.ofConfig c = .ok s) :
    s.stats = ⟨⟨0, c.arrayCapacity, c.arrayCapacity⟩, ⟨0, c.hashCapacity, c.hashCapacity⟩,
      ⟨0, c.treeCapacity, c.treeCapacity⟩⟩ := by
  obtain rfl := Store.eq_of_ofConfig h
  rw [Store.stats, Store.usage, Store.usage, Store.usage,
    @usage_empty SlotTable _ _ c.arrayCapacity rfl (SlotTable.capacity_empty _),
    @usage_empty ChainTable _ _ c.hashCapacity rfl rfl,
    @usage_empty TreeTable _ _ c.treeCapacity rfl rfl]

theorem chainCount_ofConfig {c : Config} {s : Store} (h : Store.ofConfig c = .ok s)
    (hbuckets : 1 ≤ c.buckets) : s.hash.chainCount = c.buckets := by
  obtain rfl := Store.eq_of_ofConfig h
  rw [ChainTable.chainCount, ChainTable.empty, Array.size_replicate, Nat.max_eq_left hbuckets]

theorem report_empty (array hash tree : Nat) :
    Stats.report ⟨⟨0, array, array⟩, ⟨0, hash, hash⟩, ⟨0, tree, tree⟩⟩ =
      ["array count=0 remaining=" ++ toString array ++ " max=" ++ toString array,
        "hash count=0 remaining=" ++ toString hash ++ " max=" ++ toString hash,
        "rbtree count=0 remaining=" ++ toString tree ++ " max=" ++ toString tree] := by
  have harray : "array" ++ " count=" ++ toString 0 ++ " remaining=" = "array count=0 remaining=" := by
    decide
  have hhash : "hash" ++ " count=" ++ toString 0 ++ " remaining=" = "hash count=0 remaining=" := by
    decide
  have htree : "rbtree" ++ " count=" ++ toString 0 ++ " remaining=" = "rbtree count=0 remaining=" := by
    decide
  rw [← harray, ← hhash, ← htree]
  rfl

theorem buckets_apply (sizes : Overrides) (file : Config) :
    (sizes.apply file).buckets =
      (sizes.hashBuckets.or file.hashBuckets).getD (sizes.hashCapacity.getD file.hashCapacity) := by
  rw [Config.buckets, Overrides.apply]
  cases sizes.hashBuckets <;> rfl

/-- Sizes that go before those of a file, and what an action comes to with them, wherever they were
read. -/
theorem act_apply (files : Files) (sizes : Overrides) (file : Config) :
    let c := sizes.apply file
    let array := sizes.arrayCapacity.getD file.arrayCapacity
    let hash := sizes.hashCapacity.getD file.hashCapacity
    let tree := sizes.treeCapacity.getD file.treeCapacity
    let buckets := (sizes.hashBuckets.or file.hashBuckets).getD hash
    let named := [("array_capacity", array), ("hash_capacity", hash), ("rbtree_capacity", tree),
      ("hash_buckets", buckets)]
    c.sizes = named ∧ c.buckets = buckets ∧
      ((∃ s, Store.ofConfig c = .ok s) ↔ ∀ size ∈ named, Config.Allowed size.2) ∧
      (∀ s, Store.ofConfig c = .ok s →
        s.stats = ⟨⟨0, array, array⟩, ⟨0, hash, hash⟩, ⟨0, tree, tree⟩⟩ ∧
        s.hash.chainCount = buckets ∧ act files ⟨c, .stats⟩ = .ok s.stats.report ∧
        ∀ lines, act files ⟨c, .exec lines⟩ = .ok (exec s lines).1) ∧
      ∀ before name size after, named = before ++ (name, size) :: after →
        (∀ other ∈ before, Config.Allowed other.2) → ¬ Config.Allowed size →
        (Store.ofConfig c).mapError (·.error) = .error (.config (Config.complaint name size)) ∧
          ∀ action, act files ⟨c, action⟩ = .error (.config (Config.complaint name size)) := by
  intro c array hash tree buckets named
  have hbuckets : c.buckets = buckets := buckets_apply sizes file
  have hnamed : c.sizes = named := by rw [Config.sizes, hbuckets]; rfl
  have hbuilt {s : Store} (hs : Store.ofConfig c = .ok s) : ∀ size ∈ named, Config.Allowed size.2 := by
    by_contra hnot
    obtain ⟨before, name, size, after, hfirst, hbefore, hsize⟩ := Config.exists_first hnot
    have hfault := (act_of_fault (hnamed.trans hfirst) hbefore hsize).1
    rw [hs] at hfault
    cases hfault
  refine ⟨hnamed, hbuckets, ⟨fun ⟨s, hs⟩ => hbuilt hs, fun hallowed => ?_⟩, fun s hs => ?_, ?_⟩
  · exact Store.exists_ofConfig (Config.validate_of_allowed (hnamed ▸ hallowed))
  · have hpositive : 1 ≤ buckets := (hbuilt hs ("hash_buckets", buckets) (by simp [named])).1
    have hchains := chainCount_ofConfig hs (hbuckets ▸ hpositive)
    refine ⟨stats_ofConfig hs, hchains.trans hbuckets, ?_, fun lines => ?_⟩
    · rw [act, hs]
      rfl
    · rw [act, hs]
      rfl
  · intro before name size after hfirst hbefore hsize
    obtain ⟨hstore, hact⟩ := act_of_fault (hnamed.trans hfirst) hbefore hsize
    exact ⟨hstore, hact files⟩

/-- Each size is the one of its setting, or else the one of the file, whatever the command is. A
store is built if all sizes are allowed, and has them. Otherwise the first that is not is named. -/
theorem sizes_layered {files : Files} {settings : List (String × String)} {file : Config}
    {sizes : Overrides} {args rest : List String} {arguments : Arguments} {action : Action}
    (h : Configures files settings file sizes) (hargs : Spells settings args)
    (hrest : StartsCommand rest) (hread : Arguments.read rest = .ok arguments)
    (haction : readAction arguments = .ok action) :
    let array := sizes.arrayCapacity.getD file.arrayCapacity
    let hash := sizes.hashCapacity.getD file.hashCapacity
    let tree := sizes.treeCapacity.getD file.treeCapacity
    let buckets := (sizes.hashBuckets.or file.hashBuckets).getD hash
    let named := [("array_capacity", array), ("hash_capacity", hash), ("rbtree_capacity", tree),
      ("hash_buckets", buckets)]
    ∃ c, options? files (args ++ rest) = some ⟨c, action⟩ ∧
      c.arrayCapacity = array ∧ c.hashCapacity = hash ∧ c.treeCapacity = tree ∧
      c.buckets = buckets ∧
      ((∃ s, Store.ofConfig c = .ok s) ↔ ∀ size ∈ named, 1 ≤ size.2 ∧ size.2 ≤ 16777216) ∧
      (∀ s, Store.ofConfig c = .ok s →
        s.stats = ⟨⟨0, array, array⟩, ⟨0, hash, hash⟩, ⟨0, tree, tree⟩⟩ ∧
        s.hash.chainCount = buckets ∧
        (action = .stats → run files (args ++ rest) = .done
          ["array count=0 remaining=" ++ toString array ++ " max=" ++ toString array,
            "hash count=0 remaining=" ++ toString hash ++ " max=" ++ toString hash,
            "rbtree count=0 remaining=" ++ toString tree ++ " max=" ++ toString tree]) ∧
        ∀ lines, action = .exec lines → run files (args ++ rest) = .done (exec s lines).1) ∧
      ∀ before name size after, named = before ++ (name, size) :: after →
        (∀ other ∈ before, 1 ≤ other.2 ∧ other.2 ≤ 16777216) → ¬ (1 ≤ size ∧ size ≤ 16777216) →
        let text := name ++ if size = 0 then " must be positive"
          else " must be at most 16777216, got " ++ toString size
        (Store.ofConfig c).mapError (·.error) = .error (.config text) ∧
          run files (args ++ rest) = ⟨1, "", "invalid configuration: " ++ text ++ "\n"⟩ := by
  intro array hash tree buckets named
  have hoptions := options_of_settings h hargs hrest hread haction
  obtain ⟨-, hbuckets, hbuilt, hstore, hfault⟩ := act_apply files sizes file
  refine ⟨sizes.apply file, hoptions, rfl, rfl, rfl, hbuckets, hbuilt, ?_, ?_⟩
  · intro s hs
    obtain ⟨hstats, hchains, hreport, hexec⟩ := hstore s hs
    refine ⟨hstats, hchains, ?_, ?_⟩
    · rintro rfl
      rw [run_of_options hoptions, hreport, hstats, report_empty]
    · rintro lines rfl
      rw [run_of_options hoptions, hexec]
  · intro before name size after hfirst hbefore hsize
    obtain ⟨herror, hact⟩ := hfault before name size after hfirst hbefore hsize
    refine ⟨herror, ?_⟩
    rw [run_of_options hoptions, hact]
    rfl

/-- A file with two sizes, settings in front of the command in both spellings, and a size that a
store cannot have. -/
theorem sizes_layered_of_file :
    let files : Files := fun _ => some "\x7b\"array_capacity\": 3, \"hash_capacity\": 9\x7d".toUTF8
    run files ["--hash-capacity=+5", "--config", "sizes", "--log-level=INFO", "stats"] = .done
        ["array count=0 remaining=3 max=3", "hash count=0 remaining=5 max=5",
          "rbtree count=0 remaining=1024 max=1024"] ∧
      run files ["--hash-buckets", "00", "--config=sizes", "--rbtree-capacity=16777217", "stats"] =
        .failed "invalid configuration: rbtree_capacity must be at most 16777216, got 16777217" := by
  intro files
  have hdecode : Config.codec.decode "\x7b\"array_capacity\": 3, \"hash_capacity\": 9\x7d" =
      .ok ⟨3, 9, 1024, none⟩ := by
    decide +kernel
  have hread : Arguments.read ["stats"] = .ok ⟨.empty, .stats, .empty⟩ := rfl
  have hstats : StartsCommand ["stats"] := by
    rintro name ⟨⟩
    decide
  have hbuilt := @sizes_layered files
    [("hash-capacity", "+5"), ("config", "sizes"), ("log-level", "INFO")] ⟨3, 9, 1024, none⟩
    ⟨none, some 5, none, none⟩ ["--hash-capacity=+5", "--config", "sizes", "--log-level=INFO"]
    ["stats"] _ .stats
    ⟨by decide, by decide, .file rfl rfl hdecode, rfl, ⟨"+5", rfl, by decide⟩, rfl, rfl, by decide⟩
    (.joined (by decide) (.apart (by decide) (.joined (by decide) .nil))) hstats hread rfl
  have hrefused := @sizes_layered files
    [("hash-buckets", "00"), ("config", "sizes"), ("rbtree-capacity", "16777217")]
    ⟨3, 9, 1024, none⟩ ⟨none, none, some 16777217, some 0⟩
    ["--hash-buckets", "00", "--config=sizes", "--rbtree-capacity=16777217"] ["stats"] _ .stats
    ⟨by decide, by decide, .file rfl rfl hdecode, rfl, rfl, ⟨"16777217", rfl, by decide +kernel⟩,
      ⟨"00", rfl, by decide⟩, fun _ h => nomatch h⟩
    (.apart (by decide) (.joined (by decide) (.joined (by decide) .nil))) hstats hread rfl
  obtain ⟨c, -, -, -, -, -, hiff, hdone, -⟩ := hbuilt
  obtain ⟨_, -, -, -, -, -, -, -, hfailed⟩ := hrefused
  obtain ⟨s, hs⟩ := hiff.mpr (by decide)
  refine ⟨(hdone s hs).2.2.1 rfl, ?_⟩
  exact (hfailed [("array_capacity", 3), ("hash_capacity", 9)] "rbtree_capacity" 16777217
    [("hash_buckets", 0)] rfl (by decide) (by decide)).2

end CommandLine

end TriStore
