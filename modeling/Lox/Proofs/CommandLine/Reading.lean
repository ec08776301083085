import Lox.CommandLine.Arguments

/-!
# The command lines that ask for something

A command line is read from the left, one argument at a time, and some arguments take the next one with
them, whatever it looks like. What is accepted can also be said without a reader. A command line is made
of items: a configuration file with its option, a script, a source text with its option. At most one item
gives something to run. Behind the items there is nothing more, or a flag for help or for the version and
then anything.

An item is known by its first argument, so a command line is cut into items in one way only, and the
reader finds this cut.

## Contents
- `Item`, `spelled`, `jobs`, `lastConfig`: what a command line is made of.
- `Rest`: what can stand behind the items, and what is asked for then.
- `Request.read_spelled`: the reader takes items one by one.
- `Reads`, `Request.ofArgs_eq_iff`: every command line is items and a rest, and is read as they say.
- `Request.accepted_commandLines`: which command lines ask for what.
-/

namespace Lox.CommandLine

/-! ## Items -/

/-- A part of a command line that stands by itself. -/
inductive Item
  /-- The option for the configuration file, with the file. -/
  | config (path : String)
  /-- A script, which is not taken for an option. -/
  | script (path : String) (positional : isOption path = false)
  /-- The option for a source text, with the text. -/
  | source (text : String)

namespace Item

/-- The arguments of an item. -/
def args : Item → List String
  | .config path => ["--config", path]
  | .script path _ => [path]
  | .source text => ["-c", text]

/-- What an item gives to run. -/
def job? : Item → Option Job
  | .config _ => none
  | .script path _ => some (.script path)
  | .source text => some (.source text)

/-- The configuration file an item names. -/
def configPath? : Item → Option String
  | .config path => some path
  | _ => none

end Item

/-- The arguments of some items. -/
def spelled (items : List Item) : List String := items.flatMap Item.args

/-- What some items give to run. -/
def jobs (items : List Item) : List Job := items.filterMap Item.job?

/-- The last configuration file that some items name. -/
def lastConfig (items : List Item) : Option String := (items.filterMap Item.configPath?).getLast?

@[simp] theorem spelled_nil : spelled [] = [] := rfl

@[simp] theorem spelled_cons (item : Item) (items : List Item) :
    spelled (item :: items) = item.args ++ spelled items := rfl

@[simp] theorem jobs_nil : jobs [] = [] := rfl

@[simp] theorem jobs_config (path : String) (items : List Item) :
    jobs (.config path :: items) = jobs items := rfl

@[simp] theorem jobs_script (path : String) (h : isOption path = false) (items : List Item) :
    jobs (.script path h :: items) = .script path :: jobs items := rfl

@[simp] theorem jobs_source (text : String) (items : List Item) :
    jobs (.source text :: items) = .source text :: jobs items := rfl

@[simp] theorem lastConfig_nil : lastConfig [] = none := rfl

@[simp] theorem lastConfig_config (path : String) (items : List Item) :
    lastConfig (.config path :: items) = (lastConfig items).or (some path) := by
  have hnamed : (Item.config path :: items).filterMap Item.configPath? =
      path :: items.filterMap Item.configPath? := rfl
  unfold lastConfig
  rw [hnamed, List.getLast?_cons]
  cases (items.filterMap Item.configPath?).getLast? <;> rfl

@[simp] theorem lastConfig_script (path : String) (h : isOption path = false) (items : List Item) :
    lastConfig (.script path h :: items) = lastConfig items := rfl

@[simp] theorem lastConfig_source (text : String) (items : List Item) :
    lastConfig (.source text :: items) = lastConfig items := rfl

/-! ## What stands behind the items -/

/-- The flags that ask for help. -/
def helpFlags : List String := ["--help", "-h"]

/-- The flags that ask for the version. -/
def versionFlags : List String := ["--version", "-v"]

/-- The options that take the next argument with them. -/
def valueOptions : List String := ["--config", "-c"]

theorem mem_helpFlags {arg : String} : arg ∈ helpFlags ↔ arg = "--help" ∨ arg = "-h" := by
  simp [helpFlags]

theorem mem_versionFlags {arg : String} : arg ∈ versionFlags ↔ arg = "--version" ∨ arg = "-v" := by
  simp [versionFlags]

theorem mem_valueOptions {arg : String} : arg ∈ valueOptions ↔ arg = "--config" ∨ arg = "-c" := by
  simp [valueOptions]

/-- What can stand behind items that give `job` to run and name `configPath`, and what the command line
asks for then. -/
inductive Rest (job : Option Job) (configPath : Option String) :
    List String → Except UsageError Request → Prop
  | nothing : Rest job configPath [] (.ok (.run (job.getD .interactive) configPath))
  | help {flag : String} (args : List String) : flag ∈ helpFlags →
      Rest job configPath (flag :: args) (.ok .help)
  | version {flag : String} (args : List String) : flag ∈ versionFlags →
      Rest job configPath (flag :: args) (.ok .version)
  | missing {option : String} : option ∈ valueOptions →
      Rest job configPath [option] (.error (.missingValue option))
  | unknown {option : String} (args : List String) : isOption option = true →
      option ∉ helpFlags → option ∉ versionFlags → option ∉ valueOptions →
      Rest job configPath (option :: args) (.error (.unknownOption option))
  | secondScript {path : String} (args : List String) : job.isSome = true → isOption path = false →
      Rest job configPath (path :: args) (.error (.unexpected path))
  | secondSource (text : String) (args : List String) : job.isSome = true →
      Rest job configPath ("-c" :: text :: args) (.error (.unexpected "-c"))

/-- The flags and the options have the form of an option. -/
theorem isOption_of_mem {arg : String} (h : arg ∈ helpFlags ++ versionFlags ++ valueOptions) :
    isOption arg = true := by
  have hall : ∀ a ∈ helpFlags ++ versionFlags ++ valueOptions, isOption a = true := by decide
  exact hall arg h

/-- What has not the form of an option is neither a flag nor an option. -/
theorem not_mem_of_positional {arg : String} (h : isOption arg = false) :
    arg ∉ helpFlags ∧ arg ∉ versionFlags ∧ arg ∉ valueOptions := by
  have hnot : arg ∉ helpFlags ++ versionFlags ++ valueOptions := by
    intro hmem
    exact absurd (isOption_of_mem hmem) (by rw [h]; exact Bool.false_ne_true)
  simp only [List.mem_append, not_or] at hnot
  exact ⟨hnot.1.1, hnot.1.2, hnot.2⟩

/-! ## Reading -/

namespace Request

variable {job : Option Job} {configPath : Option String}

theorem read_help {flag : String} (args : List String) (h : flag ∈ helpFlags) :
    read job configPath (flag :: args) = .ok .help := by
  unfold read
  rw [if_pos (mem_helpFlags.1 h)]

theorem read_version {flag : String} (args : List String) (h : flag ∈ versionFlags) :
    read job configPath (flag :: args) = .ok .version := by
  have hother : ¬ (flag = "--help" ∨ flag = "-h") := by
    rcases mem_versionFlags.1 h with rfl | rfl <;> decide
  unfold read
  rw [if_neg hother, if_pos (mem_versionFlags.1 h)]

/-- An option for a configuration file takes whatever follows. -/
theorem read_config (path : String) (args : List String) :
    read job configPath ("--config" :: path :: args) = read job (some path) args := by
  rw [read, if_neg (by decide), if_neg (by decide), if_pos rfl]

/-- An option for a source text takes whatever follows, if there is nothing to run yet. -/
theorem read_source (text : String) (args : List String) :
    read job configPath ("-c" :: text :: args) =
      if job.isSome then .error (.unexpected "-c") else read (some (.source text)) configPath args := by
  rw [read, if_neg (by decide), if_neg (by decide), if_neg (by decide), if_pos rfl]

/-- An argument that is neither a flag nor an option with a value. -/
theorem read_other {arg : String} (args : List String) (hhelp : arg ∉ helpFlags)
    (hversion : arg ∉ versionFlags) (hvalue : arg ∉ valueOptions) :
    read job configPath (arg :: args) =
      if isOption arg then .error (.unknownOption arg)
      else if job.isSome then .error (.unexpected arg)
      else read (some (.script arg)) configPath args := by
  rw [mem_helpFlags] at hhelp
  rw [mem_versionFlags] at hversion
  rw [mem_valueOptions, not_or] at hvalue
  rw [read.eq_def]
  simp only [if_neg hhelp, if_neg hversion, if_neg hvalue.1, if_neg hvalue.2]

theorem read_script {path : String} (args : List String) (h : isOption path = false) :
    read job configPath (path :: args) =
      if job.isSome then .error (.unexpected path) else read (some (.script path)) configPath args := by
  obtain ⟨hhelp, hversion, hvalue⟩ := not_mem_of_positional h
  rw [read_other args hhelp hversion hvalue, if_neg (by rw [h]; exact Bool.false_ne_true)]

theorem read_missing {option : String} (h : option ∈ valueOptions) :
    read job configPath [option] = .error (.missingValue option) := by
  rcases mem_valueOptions.1 h with rfl | rfl
  · rw [read, if_neg (by decide), if_neg (by decide), if_pos rfl]
  · rw [read, if_neg (by decide), if_neg (by decide), if_neg (by decide), if_pos rfl]

/-- A rest is read as it says. -/
theorem read_rest {args : List String} {outcome : Except UsageError Request}
    (h : Rest job configPath args outcome) : read job configPath args = outcome := by
  cases h with
  | nothing => rfl
  | help args hflag => exact read_help args hflag
  | version args hflag => exact read_version args hflag
  | missing hoption => exact read_missing hoption
  | unknown args hoption hhelp hversion hvalue =>
      rw [read_other args hhelp hversion hvalue, if_pos hoption]
  | secondScript args hjob hpath => rw [read_script args hpath, if_pos hjob]
  | secondSource text args hjob => rw [read_source, if_pos hjob]

/-- **The reader takes items one by one**, as long as no second one gives something to run. -/
theorem read_spelled (items : List Item) (args : List String)
    (hone : (job.toList ++ jobs items).length ≤ 1) :
    read job configPath (spelled items ++ args) =
      read (job.or (jobs items).head?) ((lastConfig items).or configPath) args := by
  induction items generalizing job configPath with
  | nil => rw [spelled_nil, List.nil_append, jobs_nil, List.head?_nil, Option.or_none]; rfl
  | cons item items ih =>
      cases item with
      | config path =>
          rw [jobs_config] at hone ⊢
          have hlater : read job (some path) (spelled items ++ args) = _ := ih hone
          rw [spelled_cons, lastConfig_config, Option.or_assoc, Option.some_or]
          exact (read_config path _).trans hlater
      | script path hpath =>
          -- There was nothing to run before, and the later items give nothing to run.
          rw [jobs_script] at hone ⊢
          cases job with
          | some job => simp at hone
          | none =>
              have hnone : jobs items = [] := List.eq_nil_of_length_eq_zero (by simpa using hone)
              have hone' : ((some (Job.script path)).toList ++ jobs items).length ≤ 1 := by
                rw [hnone]
                exact Nat.le_refl 1
              rw [spelled_cons, lastConfig_script, List.head?_cons, Option.none_or]
              exact (read_script _ hpath).trans (ih hone')
      | source text =>
          rw [jobs_source] at hone ⊢
          cases job with
          | some job => simp at hone
          | none =>
              have hnone : jobs items = [] := List.eq_nil_of_length_eq_zero (by simpa using hone)
              have hone' : ((some (Job.source text)).toList ++ jobs items).length ≤ 1 := by
                rw [hnone]
                exact Nat.le_refl 1
              rw [spelled_cons, lastConfig_source, List.head?_cons, Option.none_or]
              exact (read_source text _).trans (ih hone')

end Request

/-- What a command line asks for by its items and its rest, when `job` is to be run already and
`configPath` is named already. -/
def Reads (job : Option Job) (configPath : Option String) (args : List String)
    (outcome : Except UsageError Request) : Prop :=
  ∃ items rest, args = spelled items ++ rest ∧ (job.toList ++ jobs items).length ≤ 1 ∧
    Rest (job.or (jobs items).head?) ((lastConfig items).or configPath) rest outcome

namespace Reads

variable {job : Option Job} {configPath : Option String} {args : List String}
  {outcome : Except UsageError Request}

theorem of_rest (h : Rest job configPath args outcome) : Reads job configPath args outcome := by
  refine ⟨[], args, rfl, ?_, ?_⟩
  · cases job <;> simp
  · rw [jobs_nil, List.head?_nil, Option.or_none, lastConfig_nil, Option.none_or]
    exact h

theorem config (path : String) (h : Reads job (some path) args outcome) :
    Reads job configPath ("--config" :: path :: args) outcome := by
  obtain ⟨items, rest, rfl, hone, hrest⟩ := h
  refine ⟨.config path :: items, rest, rfl, hone, ?_⟩
  rw [jobs_config, lastConfig_config, Option.or_assoc, Option.some_or]
  exact hrest

theorem script {path : String} (hpath : isOption path = false)
    (h : Reads (some (.script path)) configPath args outcome) :
    Reads none configPath (path :: args) outcome := by
  obtain ⟨items, rest, rfl, hone, hrest⟩ := h
  refine ⟨.script path hpath :: items, rest, rfl, hone, ?_⟩
  rw [jobs_script, lastConfig_script]
  exact hrest

theorem source (text : String) (h : Reads (some (.source text)) configPath args outcome) :
    Reads none configPath ("-c" :: text :: args) outcome := by
  obtain ⟨items, rest, rfl, hone, hrest⟩ := h
  refine ⟨.source text :: items, rest, rfl, hone, ?_⟩
  rw [jobs_source, lastConfig_source]
  exact hrest

end Reads

namespace Request

/-- What the reader answers is said by items and a rest. -/
theorem reads_read (job : Option Job) (configPath : Option String) (args : List String) :
    Reads job configPath args (read job configPath args) := by
  fun_induction read job configPath args with
  | case1 job configPath => exact .of_rest .nothing
  | case2 job configPath arg args hflag => exact .of_rest (.help args (mem_helpFlags.2 hflag))
  | case3 job configPath arg args _ hflag => exact .of_rest (.version args (mem_versionFlags.2 hflag))
  | case4 job configPath => exact .of_rest (.missing (mem_valueOptions.2 (.inl rfl)))
  | case5 job configPath path args _ _ ih => exact ih.config path
  | case6 job configPath => exact .of_rest (.missing (mem_valueOptions.2 (.inr rfl)))
  | case7 job configPath text args hjob => exact .of_rest (.secondSource text args hjob)
  | case8 job configPath text args hjob _ _ _ ih =>
      obtain rfl : job = none := Option.not_isSome_iff_eq_none.1 hjob
      exact ih.source text
  | case9 job configPath arg args hhelp hversion hconfig hsource hoption =>
      have hvalue : arg ∉ valueOptions := fun hmem => (mem_valueOptions.1 hmem).elim hconfig hsource
      exact .of_rest (.unknown args hoption (mt mem_helpFlags.1 hhelp)
        (mt mem_versionFlags.1 hversion) hvalue)
  | case10 job configPath arg args _ _ _ _ hoption hjob =>
      exact .of_rest (.secondScript args hjob (eq_false_of_ne_true hoption))
  | case11 job configPath arg args _ _ _ _ hoption hjob ih =>
      obtain rfl : job = none := Option.not_isSome_iff_eq_none.1 hjob
      exact ih.script (eq_false_of_ne_true hoption)

/-- Items and a rest say what the reader answers. -/
theorem read_eq_of_reads {job : Option Job} {configPath : Option String} {args : List String}
    {outcome : Except UsageError Request} (h : Reads job configPath args outcome) :
    read job configPath args = outcome := by
  obtain ⟨items, rest, rfl, hone, hrest⟩ := h
  rw [read_spelled items rest hone]
  exact read_rest hrest

/-- **What a command line asks for** is what its items and its rest say, and nothing else. -/
theorem ofArgs_eq_iff {args : List String} {outcome : Except UsageError Request} :
    ofArgs args = outcome ↔ Reads none none args outcome := by
  constructor
  · intro h
    rw [← h]
    exact reads_read none none args
  · exact read_eq_of_reads

/-! ## What is asked for -/

/-- No item gives an interactive session to run. -/
theorem interactive_not_mem_jobs (items : List Item) : Job.interactive ∉ jobs items := by
  intro hmem
  obtain ⟨item, -, hjob⟩ := List.mem_filterMap.1 hmem
  cases item with
  | config path => cases hjob
  | script path hpath => cases hjob
  | source text => cases hjob

/-- Something is to be run when the command line is items only. -/
theorem ofArgs_eq_run_iff {args : List String} {job : Job} {configPath : Option String} :
    ofArgs args = .ok (.run job configPath) ↔
      ∃ items, args = spelled items ∧ (jobs items).length ≤ 1 ∧
        (jobs items).head?.getD .interactive = job ∧ lastConfig items = configPath := by
  rw [ofArgs_eq_iff]
  constructor
  · rintro ⟨items, rest, rfl, hone, hrest⟩
    rw [Option.none_or, Option.or_none] at hrest
    cases hrest with
    | nothing => exact ⟨items, List.append_nil _, hone, rfl, rfl⟩
  · rintro ⟨items, rfl, hone, rfl, rfl⟩
    refine ⟨items, [], (List.append_nil _).symm, hone, ?_⟩
    rw [Option.none_or, Option.or_none]
    exact .nothing

/-- A script or a source is run when it is the one that the items give. -/
theorem ofArgs_eq_run_job_iff {args : List String} {job : Job} {configPath : Option String}
    (hjob : job ≠ .interactive) :
    ofArgs args = .ok (.run job configPath) ↔
      ∃ items, args = spelled items ∧ jobs items = [job] ∧ lastConfig items = configPath := by
  rw [ofArgs_eq_run_iff]
  constructor
  · rintro ⟨items, hargs, hone, hhead, hconfig⟩
    refine ⟨items, hargs, ?_, hconfig⟩
    rcases hjobs : jobs items with _ | ⟨first, later⟩
    · rw [hjobs] at hhead
      exact absurd hhead.symm hjob
    · rw [hjobs] at hone hhead
      obtain rfl : later = [] := List.eq_nil_of_length_eq_zero (by simpa using hone)
      exact congrArg (fun first => [first]) hhead
  · rintro ⟨items, hargs, hjobs, hconfig⟩
    exact ⟨items, hargs, by rw [hjobs]; exact Nat.le_refl 1, by rw [hjobs]; rfl, hconfig⟩

/-- An interactive session is asked for when the items give nothing to run. -/
theorem ofArgs_eq_run_interactive_iff {args : List String} {configPath : Option String} :
    ofArgs args = .ok (.run .interactive configPath) ↔
      ∃ items, args = spelled items ∧ jobs items = [] ∧ lastConfig items = configPath := by
  rw [ofArgs_eq_run_iff]
  constructor
  · rintro ⟨items, hargs, -, hhead, hconfig⟩
    refine ⟨items, hargs, ?_, hconfig⟩
    rcases hjobs : jobs items with _ | ⟨first, later⟩
    · rfl
    · have hfirst : first = .interactive := by rw [hjobs] at hhead; exact hhead
      refine absurd ?_ (interactive_not_mem_jobs items)
      rw [hjobs, hfirst]
      exact List.mem_cons_self
  · rintro ⟨items, hargs, hjobs, hconfig⟩
    exact ⟨items, hargs, by rw [hjobs]; exact Nat.zero_le 1, by rw [hjobs]; rfl, hconfig⟩

/-- A flag is reached when there are items only in front of it. -/
theorem reads_flag_iff {args : List String} {flags : List String} {request : Request}
    (hrest : ∀ {job configPath rest}, Rest job configPath rest (.ok request) ↔
      ∃ flag later, rest = flag :: later ∧ flag ∈ flags) :
    ofArgs args = .ok request ↔
      ∃ items flag later, args = spelled items ++ flag :: later ∧ (jobs items).length ≤ 1 ∧
        flag ∈ flags := by
  rw [ofArgs_eq_iff]
  constructor
  · rintro ⟨items, rest, rfl, hone, h⟩
    obtain ⟨flag, later, rfl, hflag⟩ := hrest.1 h
    exact ⟨items, flag, later, rfl, hone, hflag⟩
  · rintro ⟨items, flag, later, rfl, hone, hflag⟩
    exact ⟨items, flag :: later, rfl, hone, hrest.2 ⟨flag, later, rfl, hflag⟩⟩

theorem ofArgs_eq_help_iff {args : List String} :
    ofArgs args = .ok .help ↔
      ∃ items flag later, args = spelled items ++ flag :: later ∧ (jobs items).length ≤ 1 ∧
        flag ∈ helpFlags := by
  refine reads_flag_iff fun {job configPath rest} => ⟨?_, ?_⟩
  · intro h
    cases h with
    | help later hflag => exact ⟨_, later, rfl, hflag⟩
  · rintro ⟨flag, later, rfl, hflag⟩
    exact .help later hflag

theorem ofArgs_eq_version_iff {args : List String} :
    ofArgs args = .ok .version ↔
      ∃ items flag later, args = spelled items ++ flag :: later ∧ (jobs items).length ≤ 1 ∧
        flag ∈ versionFlags := by
  refine reads_flag_iff fun {job configPath rest} => ⟨?_, ?_⟩
  · intro h
    cases h with
    | version later hflag => exact ⟨_, later, rfl, hflag⟩
  · rintro ⟨flag, later, rfl, hflag⟩
    exact .version later hflag

/-- Nothing is asked for when there are neither items only nor items in front of a flag. -/
theorem ofArgs_eq_error_iff {args : List String} :
    (∃ error, ofArgs args = .error error) ↔
      ¬ (∃ items, args = spelled items ∧ (jobs items).length ≤ 1) ∧
      ¬ (∃ items flag later, args = spelled items ++ flag :: later ∧ (jobs items).length ≤ 1 ∧
        flag ∈ helpFlags ++ versionFlags) := by
  constructor
  · rintro ⟨error, herror⟩
    refine ⟨?_, ?_⟩
    · rintro ⟨items, hargs, hone⟩
      have hrun := ofArgs_eq_run_iff.2 ⟨items, hargs, hone, rfl, rfl⟩
      rw [herror] at hrun
      cases hrun
    · rintro ⟨items, flag, later, hargs, hone, hflag⟩
      rcases List.mem_append.1 hflag with hhelp | hversion
      · have hok := ofArgs_eq_help_iff.2 ⟨items, flag, later, hargs, hone, hhelp⟩
        rw [herror] at hok
        cases hok
      · have hok := ofArgs_eq_version_iff.2 ⟨items, flag, later, hargs, hone, hversion⟩
        rw [herror] at hok
        cases hok
  · rintro ⟨hitems, hflags⟩
    rcases hread : ofArgs args with error | request
    · exact ⟨error, rfl⟩
    · exfalso
      cases request with
      | run job configPath =>
          obtain ⟨items, hargs, hone, -, -⟩ := ofArgs_eq_run_iff.1 hread
          exact hitems ⟨items, hargs, hone⟩
      | help =>
          obtain ⟨items, flag, later, hargs, hone, hflag⟩ := ofArgs_eq_help_iff.1 hread
          exact hflags ⟨items, flag, later, hargs, hone, List.mem_append_left _ hflag⟩
      | version =>
          obtain ⟨items, flag, later, hargs, hone, hflag⟩ := ofArgs_eq_version_iff.1 hread
          exact hflags ⟨items, flag, later, hargs, hone, List.mem_append_right _ hflag⟩

/-- **The command lines that ask for something.** A script, a source text or an interactive session is
run when the command line is items only, of which one gives the script, or one the source text, or none
gives anything; the configuration file is the last one named. Help and the version are shown when a flag
for them stands directly behind items of which at most one gives something to run. On every other command
line the reader fails. -/
theorem accepted_commandLines (args : List String) :
    (∀ path configPath, ofArgs args = .ok (.run (.script path) configPath) ↔
      ∃ items, args = spelled items ∧ jobs items = [.script path] ∧ lastConfig items = configPath) ∧
    (∀ text configPath, ofArgs args = .ok (.run (.source text) configPath) ↔
      ∃ items, args = spelled items ∧ jobs items = [.source text] ∧ lastConfig items = configPath) ∧
    (∀ configPath, ofArgs args = .ok (.run .interactive configPath) ↔
      ∃ items, args = spelled items ∧ jobs items = [] ∧ lastConfig items = configPath) ∧
    (ofArgs args = .ok .help ↔
      ∃ items flag later, args = spelled items ++ flag :: later ∧ (jobs items).length ≤ 1 ∧
        flag ∈ helpFlags) ∧
    (ofArgs args = .ok .version ↔
      ∃ items flag later, args = spelled items ++ flag :: later ∧ (jobs items).length ≤ 1 ∧
        flag ∈ versionFlags) ∧
    ((∃ error, ofArgs args = .error error) ↔
      ¬ (∃ items, args = spelled items ∧ (jobs items).length ≤ 1) ∧
      ¬ (∃ items flag later, args = spelled items ++ flag :: later ∧ (jobs items).length ≤ 1 ∧
        flag ∈ helpFlags ++ versionFlags)) := by
  refine ⟨fun path configPath => ofArgs_eq_run_job_iff Job.noConfusion,
    fun text configPath => ofArgs_eq_run_job_iff Job.noConfusion,
    fun configPath => ofArgs_eq_run_interactive_iff, ofArgs_eq_help_iff, ofArgs_eq_version_iff,
    ofArgs_eq_error_iff⟩

/-- What looks like a flag is a file or a text where an option takes it. -/
example : ofArgs ["--config", "--help", "-c", "-v"] = .ok (.run (.source "-v") (some "--help")) := by
  rfl

end Request

end Lox.CommandLine
