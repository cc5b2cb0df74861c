import BranchCases.CommandLine.Run

/-
What a command line says. Its arguments come in groups: a suite, or an option with its value in one
argument or in two. Reading them settles one after another what they say. Main results: in every
order a suite and options said at most once are understood as the same command
(`Asks.ofArguments_eq`), and nothing that is said twice is understood (`Miscounted.exists_error`).
-/
namespace BranchCases.CommandLine

/-- Where the value of an option stands: behind `=`, or in an argument of its own. -/
inductive Spelling where
  | joined | apart

inductive Group where
  | suite (suite : Suite)
  | format (spelling : Spelling) (format : Format)
  | grep (spelling : Spelling) (text : String)

def Spelling.arguments (option : ValueOption) (value : String) : Spelling → List String
  | .joined => [option.name ++ "=" ++ value]
  | .apart => [option.name, value]

def Group.arguments : Group → List String
  | .suite chosen => [chosen.name]
  | .format spelling chosen => spelling.arguments .format (Named.name chosen)
  | .grep spelling text => spelling.arguments .grep text

def Group.suite? : Group → Option Suite
  | .suite chosen => some chosen
  | .format _ _ | .grep _ _ => none

def Group.format? : Group → Option Format
  | .format _ chosen => some chosen
  | .suite _ | .grep _ _ => none

def Group.pattern? : Group → Option String
  | .grep _ text => some text
  | .suite _ | .format _ _ => none

/-- The arguments of the groups and, where a mark ends the options, the texts behind it. -/
def spell (groups : List Group) : Option (List String) → List String
  | none => groups.flatMap Group.arguments
  | some rest => groups.flatMap Group.arguments ++ "--" :: rest

/-! ## The shapes of arguments -/

/-- The name of an option in the shape of its argument. -/
def ValueOption.word : ValueOption → String
  | .format => "format"
  | .grep => "grep"

theorem shapeOf_suite (suite : Suite) : shapeOf suite.name = .plain := by
  cases suite with
  | brSolo | brEl | brElbr | brElbrEl => rfl

theorem shapeOf_apart (option : ValueOption) : shapeOf option.name = .long option.word none := by
  cases option with
  | format | grep => rfl

/-- The first `=` is the one behind the name, whatever the value holds. -/
theorem shapeOf_joined (option : ValueOption) (value : String) :
    shapeOf (option.name ++ "=" ++ value) = .long option.word (some value) := by
  have hlist : (option.name ++ "=" ++ value).toList =
      option.name.toList ++ '=' :: value.toList := by
    rw [String.toList_append, String.toList_append, List.append_assoc]
    rfl
  have hvalue : String.ofList value.toList = value := String.ofList_toList
  rw [shapeOf, hlist]
  cases option with
  | format => exact congrArg (fun v => Shape.long "format" (some v)) hvalue
  | grep => exact congrArg (fun v => Shape.long "grep" (some v)) hvalue

theorem isPlain_of_head {text : String} (h : text.toList.head? ≠ some '-') :
    isPlain text = true := by
  have hshape : shapeOf text = .plain := by
    unfold shapeOf
    split
    · next hlist => exact absurd (congrArg List.head? hlist) h
    · next word hlist => exact absurd (congrArg List.head? hlist) h
    · next c letters _ hlist => exact absurd (congrArg List.head? hlist) h
    · rfl
  rw [isPlain, hshape]

theorem isPlain_format (format : Format) : isPlain (Named.name format) = true := by
  cases format with
  | test | stateTest => rfl

/-! ## Reading groups -/

section

variable (readSearch : SearchReader)

theorem readArguments_plain {argument : String} (h : shapeOf argument = .plain)
    (rest : List String) (s : Settled) : readArguments readSearch (argument :: rest) s =
      (s.positional argument).bind (readArguments readSearch rest) := by
  rw [readArguments, h]
  rfl

theorem readArguments_joined (option : ValueOption) (value : String) (rest : List String)
    (s : Settled) :
    readArguments readSearch ((option.name ++ "=" ++ value) :: rest) s =
      (s.option readSearch option value).bind (readArguments readSearch rest) := by
  rw [readArguments, shapeOf_joined]
  cases option with
  | format | grep => rfl

theorem readArguments_apart (option : ValueOption) (value : String) (rest : List String)
    (s : Settled) : readArguments readSearch (option.name :: value :: rest) s =
      (if isPlain value then s.option readSearch option value
        else .error (.missingValue option)).bind (readArguments readSearch rest) := by
  rw [readArguments, shapeOf_apart]
  cases hplain : isPlain value with
  | true | false =>
      cases option with
      | format | grep =>
          simp only [ValueOption.word, optionNamed?, hplain]
          rfl

/-- Settle what a group says. -/
def Settled.group (s : Settled) : Group → Except UsageError Settled
  | .suite chosen => s.positional chosen.name
  | .format _ chosen => s.option readSearch .format (Named.name chosen)
  | .grep .joined text => s.option readSearch .grep text
  | .grep .apart text =>
    if isPlain text then s.option readSearch .grep text else .error (.missingValue .grep)

theorem readArguments_group (g : Group) (rest : List String) (s : Settled) :
    readArguments readSearch (g.arguments ++ rest) s =
      (s.group readSearch g).bind (readArguments readSearch rest) := by
  cases g with
  | suite chosen => exact readArguments_plain readSearch (shapeOf_suite chosen) rest s
  | format spelling chosen =>
      cases spelling with
      | joined => exact readArguments_joined readSearch .format (Named.name chosen) rest s
      | apart =>
          have hread := readArguments_apart readSearch .format (Named.name chosen) rest s
          rw [isPlain_format, if_pos rfl] at hread
          exact hread
  | grep spelling text =>
      cases spelling with
      | joined => exact readArguments_joined readSearch .grep text rest s
      | apart => exact readArguments_apart readSearch .grep text rest s

theorem readArguments_groups (groups : List Group) (rest : List String) (s : Settled) :
    readArguments readSearch (groups.flatMap Group.arguments ++ rest) s =
      (groups.foldlM (Settled.group readSearch) s).bind (readArguments readSearch rest) := by
  induction groups generalizing s with
  | nil => rfl
  | cons g groups ih =>
      rw [List.flatMap_cons, List.append_assoc, readArguments_group, List.foldlM_cons]
      cases hg : s.group readSearch g with
      | error error => rfl
      | ok s' => exact ih s'

/-- A command line is read group by group, and behind the mark text by text. -/
theorem ofArguments_spell (groups : List Group) (rest : Option (List String)) :
    Command.ofArguments readSearch (spell groups rest) =
      (groups.foldlM (Settled.group readSearch) {}).bind fun s =>
        ((rest.getD []).foldlM Settled.positional s).bind Settled.command := by
  have hread := readArguments_groups readSearch groups
  cases rest with
  | none =>
      have hnone := hread [] {}
      rw [List.append_nil] at hnone
      exact hnone
  | some texts => exact hread ("--" :: texts) {}

/-! ## What is settled -/

/-- What is settled in `s'` is what is settled in `s` and, after it, what has been said. -/
structure Settled.Adds (s : Settled) (suites : List Suite) (formats : List Format)
    (patterns : List String) (s' : Settled) : Prop where
  suite : s'.suite.toList = s.suite.toList ++ suites
  format : s'.format.toList = s.format.toList ++ formats
  grep : s'.grep.toList.map Except.ok = s.grep.toList.map Except.ok ++ patterns.map readSearch

variable {readSearch}

theorem Settled.Adds.refl (s : Settled) : s.Adds readSearch [] [] [] s :=
  ⟨(List.append_nil _).symm, (List.append_nil _).symm, (List.append_nil _).symm⟩

theorem Settled.Adds.trans {s s' s'' : Settled} {suites suites' : List Suite}
    {formats formats' : List Format} {patterns patterns' : List String}
    (h : s.Adds readSearch suites formats patterns s')
    (h' : s'.Adds readSearch suites' formats' patterns' s'') :
    s.Adds readSearch (suites ++ suites') (formats ++ formats') (patterns ++ patterns') s'' := by
  constructor
  · rw [h'.suite, h.suite, List.append_assoc]
  · rw [h'.format, h.format, List.append_assoc]
  · rw [h'.grep, h.grep, List.map_append, List.append_assoc]

theorem pick_suite (suite : Suite) : Named.pick .exactly suite.name = .ok suite := by
  cases suite with
  | brSolo | brEl | brElbr | brElbrEl => rfl

theorem pick_format (format : Format) : Named.pick .exactly (Named.name format) = .ok format := by
  cases format with
  | test | stateTest => rfl

variable (readSearch) in
theorem Settled.adds_positional {s s' : Settled} {text : String}
    (h : s.positional text = .ok s') :
    ∃ chosen, Named.pick .exactly text = .ok chosen ∧ s.Adds readSearch [chosen] [] [] s' := by
  unfold Settled.positional at h
  split at h
  · cases h
  · next chosen hnone hpick =>
      cases h
      refine ⟨chosen, hpick, ?_, (List.append_nil _).symm, (List.append_nil _).symm⟩
      rw [hnone]
      rfl
  · cases h

theorem Settled.adds_format {s s' : Settled} {chosen : Format}
    (h : s.option readSearch .format (Named.name chosen) = .ok s') :
    s.Adds readSearch [] [chosen] [] s' := by
  unfold Settled.option at h
  dsimp only at h
  split at h
  · cases h
  · next format hnone hpick =>
      rw [pick_format] at hpick
      cases hpick
      cases h
      refine ⟨(List.append_nil _).symm, ?_, (List.append_nil _).symm⟩
      rw [hnone]
      rfl
  · cases h

theorem Settled.adds_grep {s s' : Settled} {text : String}
    (h : s.option readSearch .grep text = .ok s') : s.Adds readSearch [] [] [text] s' := by
  unfold Settled.option at h
  dsimp only at h
  split at h
  · cases h
  · next search hnone hread =>
      cases h
      refine ⟨(List.append_nil _).symm, (List.append_nil _).symm, ?_⟩
      rw [hnone, List.map_singleton, hread]
      rfl
  · cases h

/-- One step: a group that is settled adds what it says. -/
theorem Settled.adds_group {s s' : Settled} {g : Group} (h : s.group readSearch g = .ok s') :
    s.Adds readSearch g.suite?.toList g.format?.toList g.pattern?.toList s' := by
  cases g with
  | suite chosen =>
      obtain ⟨chosen', hpick, hadds⟩ := Settled.adds_positional readSearch h
      rw [pick_suite] at hpick
      cases hpick
      exact hadds
  | format spelling chosen => exact Settled.adds_format h
  | grep spelling text =>
      cases spelling with
      | joined => exact Settled.adds_grep h
      | apart =>
          change (if isPlain text then s.option readSearch .grep text
            else .error (.missingValue .grep)) = .ok s' at h
          split at h
          · exact Settled.adds_grep h
          · cases h

theorem filterMap_cons_toList {α β : Type} (f : α → Option β) (a : α) (l : List α) :
    (a :: l).filterMap f = (f a).toList ++ l.filterMap f := by
  rw [List.filterMap_cons]
  cases f a with
  | none => rfl
  | some b => rfl

/-- A run: groups that are all settled add all that they say. -/
theorem Settled.adds_groups {groups : List Group} {s s' : Settled}
    (h : groups.foldlM (Settled.group readSearch) s = .ok s') :
    s.Adds readSearch (groups.filterMap Group.suite?) (groups.filterMap Group.format?)
      (groups.filterMap Group.pattern?) s' := by
  induction groups generalizing s with
  | nil =>
      cases h
      exact .refl _
  | cons g groups ih =>
      rw [List.foldlM_cons] at h
      cases hg : s.group readSearch g with
      | error error =>
          rw [hg] at h
          cases h
      | ok mid =>
          rw [hg] at h
          simp only [filterMap_cons_toList]
          exact (Settled.adds_group hg).trans (ih h)

variable (readSearch) in
theorem Settled.adds_texts {texts : List String} {s s' : Settled}
    (h : texts.foldlM Settled.positional s = .ok s') :
    ∃ suites, suites.length = texts.length ∧ s.Adds readSearch suites [] [] s' := by
  induction texts generalizing s with
  | nil =>
      cases h
      exact ⟨[], rfl, .refl _⟩
  | cons text texts ih =>
      rw [List.foldlM_cons] at h
      cases htext : s.positional text with
      | error error =>
          rw [htext] at h
          cases h
      | ok mid =>
          rw [htext] at h
          obtain ⟨suites, hlength, hadds⟩ := ih h
          obtain ⟨chosen, -, hfirst⟩ := Settled.adds_positional readSearch htext
          exact ⟨chosen :: suites, congrArg Nat.succ hlength, hfirst.trans hadds⟩

/-! ## What is understood -/

/-- The options are given at most once, and so is the suite. -/
structure Settled.HasRoom (s : Settled) (suites : List Suite) (formats : List Format)
    (patterns : List String) : Prop where
  suite : s.suite.toList.length + suites.length ≤ 1
  format : s.format.toList.length + formats.length ≤ 1
  grep : s.grep.toList.length + patterns.length ≤ 1

theorem Settled.HasRoom.first {s : Settled} {suites suites' : List Suite}
    {formats formats' : List Format} {patterns patterns' : List String}
    (hroom : s.HasRoom (suites ++ suites') (formats ++ formats') (patterns ++ patterns')) :
    s.HasRoom suites formats patterns := by
  obtain ⟨hsuite, hformat, hgrep⟩ := hroom
  rw [List.length_append] at hsuite hformat hgrep
  constructor
  · omega
  · omega
  · omega

/-- What has been said takes up the room. -/
theorem Settled.HasRoom.rest {s s' : Settled} {suites suites' : List Suite}
    {formats formats' : List Format} {patterns patterns' : List String}
    (hroom : s.HasRoom (suites ++ suites') (formats ++ formats') (patterns ++ patterns'))
    (hadds : s.Adds readSearch suites formats patterns s') :
    s'.HasRoom suites' formats' patterns' := by
  have hgrep := congrArg List.length hadds.grep
  rw [List.length_append, List.length_map, List.length_map, List.length_map] at hgrep
  constructor
  · rw [hadds.suite, List.length_append, Nat.add_assoc, ← List.length_append]
    exact hroom.suite
  · rw [hadds.format, List.length_append, Nat.add_assoc, ← List.length_append]
    exact hroom.format
  · rw [hgrep, Nat.add_assoc, ← List.length_append]
    exact hroom.grep

theorem eq_none_of_room {α β : Type} {o : Option α} {b : β} {l : List β}
    (h : o.toList.length + (b :: l).length ≤ 1) : o = none := by
  cases o with
  | none => rfl
  | some a =>
      rw [Option.toList_some, List.length_singleton, List.length_cons] at h
      omega

theorem Settled.positional_suite {s : Settled} (chosen : Suite) (h : s.suite = none) :
    s.positional chosen.name = .ok { s with suite := some chosen } := by
  rw [Settled.positional, h, pick_suite]

variable (readSearch) in
theorem Settled.option_format {s : Settled} (chosen : Format) (h : s.format = none) :
    s.option readSearch .format (Named.name chosen) = .ok { s with format := some chosen } := by
  simp only [Settled.option, h, pick_format]

theorem Settled.option_grep {s : Settled} {text : String} {search : String → Bool}
    (hread : readSearch text = .ok search) (h : s.grep = none) :
    s.option readSearch .grep text = .ok { s with grep := some search } := by
  simp only [Settled.option, h, hread]

/-- A value in an argument of its own does not look like an option. -/
def Group.IsSeparable : Group → Prop
  | .grep .apart text => text.toList.head? ≠ some '-'
  | .suite _ | .format _ _ | .grep .joined _ => True

theorem Settled.exists_group {s : Settled} {g : Group}
    (hread : ∀ text ∈ g.pattern?, ∃ search, readSearch text = .ok search)
    (hseparable : g.IsSeparable)
    (hroom : s.HasRoom g.suite?.toList g.format?.toList g.pattern?.toList) :
    ∃ s', s.group readSearch g = .ok s' := by
  cases g with
  | suite chosen => exact ⟨_, positional_suite chosen (eq_none_of_room hroom.suite)⟩
  | format spelling chosen =>
      exact ⟨_, option_format readSearch chosen (eq_none_of_room hroom.format)⟩
  | grep spelling text =>
      obtain ⟨search, htext⟩ := hread text rfl
      have hsettled := option_grep htext (eq_none_of_room hroom.grep)
      cases spelling with
      | joined => exact ⟨_, hsettled⟩
      | apart =>
          have hplain : isPlain text = true := isPlain_of_head hseparable
          exact ⟨_, (if_pos hplain).trans hsettled⟩

theorem Settled.exists_groups {groups : List Group} {s : Settled}
    (hread : ∀ text ∈ groups.filterMap Group.pattern?, ∃ search, readSearch text = .ok search)
    (hseparable : ∀ g ∈ groups, g.IsSeparable)
    (hroom : s.HasRoom (groups.filterMap Group.suite?) (groups.filterMap Group.format?)
      (groups.filterMap Group.pattern?)) :
    ∃ s', groups.foldlM (Settled.group readSearch) s = .ok s' := by
  induction groups generalizing s with
  | nil => exact ⟨s, rfl⟩
  | cons g groups ih =>
      simp only [filterMap_cons_toList] at hread hroom
      obtain ⟨mid, hmid⟩ := Settled.exists_group
        (fun text htext => hread text (List.mem_append_left _ (Option.mem_toList.mpr htext)))
        (hseparable g List.mem_cons_self) hroom.first
      rw [List.foldlM_cons, hmid]
      exact ih (fun text htext => hread text (List.mem_append_right _ htext))
        (fun g hg => hseparable g (List.mem_cons_of_mem _ hg))
        (hroom.rest (Settled.adds_group hmid))

/-- One suite, behind the mark or among the groups, and each option at most once. -/
structure Asks (groups : List Group) (rest : Option (List String)) (suite : Suite)
    (format : Option Format) (pattern : Option String) : Prop where
  suite : groups.filterMap Group.suite? = [suite] ∧ rest = none ∨
    groups.filterMap Group.suite? = [] ∧ rest = some [suite.name]
  format : groups.filterMap Group.format? = format.toList
  grep : groups.filterMap Group.pattern? = pattern.toList
  separable : ∀ g ∈ groups, g.IsSeparable

theorem eq_of_toList_eq {α : Type} {o o' : Option α} (h : o.toList = o'.toList) : o = o' := by
  rw [← Option.head?_toList (o := o), h, Option.head?_toList]

theorem Asks.hasRoom {groups : List Group} {rest : Option (List String)} {suite : Suite}
    {format : Option Format} {pattern : Option String}
    (h : Asks groups rest suite format pattern) :
    Settled.HasRoom {} (groups.filterMap Group.suite?) (groups.filterMap Group.format?)
      (groups.filterMap Group.pattern?) := by
  constructor
  · obtain ⟨hsuite, -⟩ | ⟨hsuite, -⟩ := h.suite
    · rw [hsuite]
      exact Nat.le_refl 1
    · rw [hsuite]
      exact Nat.zero_le 1
  · rw [h.format, Option.toList_none, List.length_nil, Nat.zero_add]
    exact Option.length_toList_le
  · rw [h.grep, Option.toList_none, List.length_nil, Nat.zero_add]
    exact Option.length_toList_le

theorem exists_search {patterns : List String} {searches : List (String → Bool)}
    (h : patterns.map readSearch = searches.map Except.ok) :
    ∀ text ∈ patterns, ∃ search, readSearch text = .ok search := by
  intro text htext
  have hmem : readSearch text ∈ patterns.map readSearch := List.mem_map_of_mem htext
  rw [h] at hmem
  obtain ⟨search, -, hsearch⟩ := List.mem_map.mp hmem
  exact ⟨search, hsearch.symm⟩

theorem Settled.command_eq {s : Settled} {suite : Suite} (h : s.suite = some suite) :
    s.command = .ok (.generate suite (s.format.getD .test) s.grep) := by
  rw [Settled.command, h]

/-- In any order, the groups ask for the same command. -/
theorem Asks.ofArguments_eq {groups : List Group} {rest : Option (List String)} {suite : Suite}
    {format : Option Format} {pattern : Option String} {search : Option (String → Bool)}
    (h : Asks groups rest suite format pattern)
    (hread : pattern.map readSearch = search.map Except.ok) :
    Command.ofArguments readSearch (spell groups rest) =
      .ok (.generate suite (format.getD .test) search) := by
  have hpatterns : pattern.toList.map readSearch = search.toList.map Except.ok := by
    rw [← Option.toList_map, hread, Option.toList_map]
  have htexts : ∀ text ∈ groups.filterMap Group.pattern?,
      ∃ search, readSearch text = .ok search := by
    rw [h.grep]
    exact exists_search hpatterns
  obtain ⟨s, hs⟩ := Settled.exists_groups htexts h.separable h.hasRoom
  have hadds := Settled.adds_groups hs
  have hformat : s.format = format := eq_of_toList_eq (hadds.format.trans h.format)
  have hgrep : s.grep = search := by
    have hsearches := hadds.grep
    rw [h.grep, hpatterns] at hsearches
    exact eq_of_toList_eq ((List.map_inj_right fun _ _ => Except.ok.inj).mp hsearches)
  rw [ofArguments_spell, hs, ← hformat, ← hgrep]
  obtain ⟨hsuite, rfl⟩ | ⟨hsuite, rfl⟩ := h.suite
  · have hsettled : s.suite = some suite := eq_of_toList_eq (hadds.suite.trans hsuite)
    exact Settled.command_eq hsettled
  · have hnone : s.suite = none := eq_of_toList_eq (hadds.suite.trans hsuite)
    have hcommand : Settled.command { s with suite := some suite } =
        .ok (.generate suite (s.format.getD .test) s.grep) := Settled.command_eq rfl
    change ([suite.name].foldlM Settled.positional s).bind Settled.command = _
    rw [List.foldlM_cons, Settled.positional_suite suite hnone]
    exact hcommand

/-- No suite or more than one, or an option more than once. Behind the mark every text stands for
a suite. -/
def Miscounted (groups : List Group) (rest : Option (List String)) : Prop :=
  (groups.filterMap Group.suite?).length + (rest.getD []).length ≠ 1 ∨
    1 < (groups.filterMap Group.format?).length ∨ 1 < (groups.filterMap Group.pattern?).length

/-- What is settled never exceeds one of each kind. -/
theorem Settled.Adds.not_miscounted {groups : List Group} {rest : Option (List String)}
    {suites : List Suite} {s s' : Settled} {command : Command}
    (hgroups : Settled.Adds readSearch {} (groups.filterMap Group.suite?)
      (groups.filterMap Group.format?) (groups.filterMap Group.pattern?) s)
    (hrest : s.Adds readSearch suites [] [] s') (hlength : suites.length = (rest.getD []).length)
    (hcommand : s'.command = .ok command) : ¬ Miscounted groups rest := by
  have hadds := hgroups.trans hrest
  have hsuite : s'.suite.toList.length = 1 := by
    unfold Settled.command at hcommand
    split at hcommand
    · next suite hsuite =>
        rw [hsuite]
        rfl
    · cases hcommand
  have hsuites := congrArg List.length hadds.suite
  have hformats := congrArg List.length hadds.format
  have hpatterns := congrArg List.length hadds.grep
  have hformat := Option.length_toList_le (o := s'.format)
  have hgrep := Option.length_toList_le (o := s'.grep)
  simp only [Option.toList_none, List.length_append, List.length_map, List.length_nil,
    List.map_nil] at hsuites hformats hpatterns
  unfold Miscounted
  omega

variable (readSearch) in
theorem Miscounted.exists_error {groups : List Group} {rest : Option (List String)}
    (h : Miscounted groups rest) :
    ∃ error, Command.ofArguments readSearch (spell groups rest) = .error error := by
  rw [ofArguments_spell]
  cases hgroups : groups.foldlM (Settled.group readSearch) {} with
  | error error => exact ⟨error, rfl⟩
  | ok s =>
      cases hrest : (rest.getD []).foldlM Settled.positional s with
      | error error => exact ⟨error, by rw [Except.bind, hrest]; rfl⟩
      | ok s' =>
          cases hcommand : s'.command with
          | error error => exact ⟨error, by rw [Except.bind, hrest]; exact hcommand⟩
          | ok command =>
              obtain ⟨suites, hlength, hadds⟩ := Settled.adds_texts readSearch hrest
              exact absurd h
                ((Settled.adds_groups hgroups).not_miscounted hadds hlength hcommand)

end

end BranchCases.CommandLine
