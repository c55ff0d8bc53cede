import Mathlib.Data.List.Induction
import ArkLang.Build.Check

/-!
# Normal paths and spellings

A path is walked segment by segment. Where the walk ends only depends on where it stood when the
last segments were reached, so a path may be put into normal form before another one is joined to
it. A normal path is its own normal form, and the modules of a program are found from the normal
form of its entry.
-/

namespace ArkLang

open List

namespace Path

/-! ### Walking -/

/-- The steps that the segments of a text take. -/
def stepsOf (text : List Char) : List Component :=
  (text.splitOn '/').filterMap step?

/-- Where a path starts. -/
def origin (p : Path) : NormalPath :=
  if p.isAbsolute then ⟨.root, []⟩ else .here

theorem stepsOf_append_slash (front back : List Char) :
    stepsOf (front ++ '/' :: back) = stepsOf front ++ stepsOf back := by
  simp [stepsOf, List.splitOn, splitOnP_append_cons]

theorem stepsOf_slash (text : List Char) : stepsOf ('/' :: text) = stepsOf text :=
  stepsOf_append_slash [] text

theorem stepsOf_intercalate {segments : List Segment} (h : ∀ s ∈ segments, '/' ∉ s) :
    stepsOf (['/'].intercalate segments) = segments.filterMap step? := by
  by_cases empty : segments = []
  · subst empty
    rfl
  · rw [stepsOf, splitOn_intercalate '/' h empty]

/-- Where the start of a path leads. -/
def followStart (start : Segment) : NormalPath :=
  (startStep? start).toList.foldl .step .here

theorem divide_steps (p : Path) : p.divide.2.filterMap step? = stepsOf p.text.toList ∧
    followStart p.divide.1 = p.origin := by
  rw [origin, isAbsolute]
  fun_cases divide p with
  | case1 rest text =>
    rw [text, stepsOf_slash]
    exact ⟨rfl, rfl⟩
  | case2 text =>
    rw [text]
    exact ⟨rfl, rfl⟩
  | case3 rest text =>
    rw [text]
    exact ⟨(stepsOf_append_slash ['.'] rest).symm, rfl⟩
  | case4 relative _ _ =>
    refine ⟨rfl, (if_neg fun absolute => ?_).symm⟩
    obtain ⟨rest, text⟩ := List.head?_eq_some_iff.mp (of_decide_eq_true absolute)
    exact relative rest text

theorem normalize_eq (p : Path) : p.normalize = (stepsOf p.text.toList).foldl .step p.origin := by
  obtain ⟨steps, start⟩ := p.divide_steps
  rw [← steps, ← start, followStart, ← foldl_append]
  rfl

theorem components_eq {p : Path}
    (first : ∀ s ∈ (p.text.toList.splitOn '/').head?, isIdle s = true → p.text.toList = []) :
    p.components = stepsOf p.text.toList := by
  rw [components]
  fun_cases divide p with
  | case1 rest text | case2 text | case3 rest text =>
    rw [text] at first
    simp [List.splitOn, splitOnP_cons_eq_if_modifyHead, isIdle] at first
  | case4 => rfl

theorem isAbsolute_append {a : Path} (nonempty : a.text ≠ "") (text : String) :
    isAbsolute ⟨a.text ++ text⟩ = a.isAbsolute := by
  have head : a.text.toList ≠ [] := by simpa using nonempty
  obtain ⟨c, rest, chars⟩ := exists_cons_of_ne_nil head
  rw [isAbsolute, isAbsolute, String.toList_append, chars]
  rfl

theorem steps_join {a b : Path} (relative : b.isAbsolute = false) :
    stepsOf (a.join b).text.toList = stepsOf a.text.toList ++ stepsOf b.text.toList ∧
      (a.join b).origin = a.origin := by
  rw [join, relative, Bool.false_or]
  split
  · next empty =>
    have empty := of_decide_eq_true empty
    rw [origin, origin, relative, isAbsolute, empty]
    exact ⟨rfl, rfl⟩
  · next nonempty =>
    have nonempty : a.text ≠ "" := by simpa using nonempty
    have start (text : String) : origin ⟨a.text ++ text⟩ = a.origin := by
      rw [origin, origin, isAbsolute_append nonempty]
    split
    · next slash =>
      obtain ⟨front, text⟩ := List.getLast?_eq_some_iff.mp slash
      refine ⟨?_, start _⟩
      rw [String.toList_append, text, append_assoc, singleton_append,
        stepsOf_append_slash, stepsOf_append_slash front []]
      simp [stepsOf, step?, isIdle]
    · rw [String.append_assoc]
      refine ⟨?_, start _⟩
      rw [String.toList_append, String.toList_append]
      exact stepsOf_append_slash a.text.toList b.text.toList

theorem normalize_join {a b : Path} (relative : b.isAbsolute = false) :
    (a.join b).normalize = (stepsOf b.text.toList).foldl .step a.normalize := by
  obtain ⟨steps, start⟩ := steps_join (a := a) relative
  rw [normalize_eq, normalize_eq a, steps, start, foldl_append]

theorem join_of_isAbsolute {a b : Path} (absolute : b.isAbsolute = true) : a.join b = b := by
  simp [join, absolute]

/-! ### Names -/

theorem notMem_of_mem_splitOn {text s : List Char} (mem : s ∈ text.splitOn '/') : '/' ∉ s := by
  induction text generalizing s with
  | nil => simp_all
  | cons c text ih =>
    rw [List.splitOn, splitOnP_cons_eq_if_modifyHead] at mem
    split at mem
    · rcases List.mem_cons.mp mem with rfl | mem
      · simp
      · exact ih mem
    · next other =>
      obtain ⟨first, rest, split⟩ := exists_cons_of_ne_nil (splitOn_ne_nil '/' text)
      rw [List.splitOn] at split
      rw [split, modifyHead_cons, mem_cons] at mem
      have found (s) (h : s ∈ first :: rest) : '/' ∉ s := ih (by rwa [List.splitOn, split])
      rcases mem with rfl | mem
      · have : c ≠ '/' := by simpa using other
        simpa using ⟨this.symm, found first mem_cons_self⟩
      · exact found s (mem_cons_of_mem _ mem)

/-- Texts that can stand between slashes as names. -/
def IsName (name : String) : Prop :=
  '/' ∉ name.toList ∧ step? name.toList = some (.name name)

theorem isName_of_mem_stepsOf {text : List Char} {name : String}
    (mem : .name name ∈ stepsOf text) : IsName name := by
  obtain ⟨s, mem, step⟩ := List.mem_filterMap.mp mem
  have given : String.ofList s = name := by
    unfold step? at step
    split at step
    · cases step
    · split at step <;> simp_all
  rw [IsName, ← given, String.toList_ofList, given]
  exact ⟨notMem_of_mem_splitOn mem, step⟩

end Path

namespace NormalPath

/-- All names of a normal path can stand between slashes. -/
def IsSpelled (n : NormalPath) : Prop :=
  ∀ name ∈ n.names, Path.IsName name

theorem IsSpelled.step {n : NormalPath} (h : n.IsSpelled) {c : Path.Component}
    (hc : ∀ name, c = .name name → Path.IsName name) : (n.step c).IsSpelled := by
  cases c with
  | root => exact forall_mem_nil _
  | here => exact h
  | up =>
    rw [NormalPath.step]
    split
    · exact h
    · exact forall_mem_nil _
    · exact fun name mem => h name (dropLast_subset _ mem)
  | name name => exact List.forall_mem_append.mpr ⟨h, by simpa using hc name rfl⟩

theorem IsSpelled.walk {steps : List Path.Component}
    (hs : ∀ name, .name name ∈ steps → Path.IsName name) {n : NormalPath} (h : n.IsSpelled) :
    (steps.foldl NormalPath.step n).IsSpelled := by
  induction steps generalizing n with
  | nil => exact h
  | cons c steps ih =>
    refine ih (fun name mem => hs name (mem_cons_of_mem _ mem)) (h.step fun name same => ?_)
    exact hs name (same ▸ mem_cons_self)

theorem isSpelled_normalize (p : Path) : p.normalize.IsSpelled := by
  rw [Path.normalize_eq]
  refine IsSpelled.walk (fun name mem => Path.isName_of_mem_stepsOf mem) ?_
  rw [Path.origin]
  split <;> exact forall_mem_nil _

/-! ### Normal paths are their own normal forms -/

/-- The steps of a normal path. -/
def steps (n : NormalPath) : List Path.Component :=
  (match n.anchor with
    | .root => [.root]
    | .above levels => List.replicate levels .up) ++ n.names.map .name

theorem walk_names (n : NormalPath) (names : List String) :
    (names.map Path.Component.name).foldl step n = ⟨n.anchor, n.names ++ names⟩ := by
  induction names generalizing n with
  | nil => simp
  | cons name names ih => simp [ih, step]

theorem walk_up (levels more : Nat) :
    (List.replicate more Path.Component.up).foldl step ⟨.above levels, []⟩ =
      ⟨.above (levels + more), []⟩ := by
  induction more generalizing levels with
  | zero => rfl
  | succ more ih =>
    rw [replicate_succ, foldl_cons, ← Nat.add_assoc, Nat.add_right_comm]
    exact ih (levels + 1)

theorem walk_steps (n : NormalPath) : n.steps.foldl step .here = n := by
  obtain ⟨anchor, names⟩ := n
  rw [steps, foldl_append, walk_names]
  cases anchor with
  | root => simp [step]
  | above levels => simp [here, walk_up]

section Text

variable {names : List String}

theorem filterMap_names (h : ∀ name ∈ names, Path.IsName name) :
    (names.map String.toList).filterMap Path.step? = names.map .name := by
  induction names with
  | nil => rfl
  | cons name names ih =>
    obtain ⟨first, others⟩ := List.forall_mem_cons.mp h
    rw [map_cons, filterMap_cons_some first.2, ih others, map_cons]

theorem segments_of_names (h : ∀ name ∈ names, Path.IsName name) (levels : Nat) :
    ∀ s ∈ (List.replicate levels ".." ++ names).map String.toList,
      '/' ∉ s ∧ Path.isIdle s = false := by
  simp only [map_append, mem_append, mem_map, mem_replicate]
  rintro s (⟨_, ⟨-, rfl⟩, rfl⟩ | ⟨name, mem, rfl⟩)
  · decide
  · refine ⟨(h name mem).1, ?_⟩
    have step := (h name mem).2
    unfold Path.step? at step
    split at step
    · cases step
    · next busy => simpa using busy

theorem stepsOf_names (h : ∀ name ∈ names, Path.IsName name) (levels : Nat) :
    Path.stepsOf ("/".intercalate (List.replicate levels ".." ++ names)).toList =
      List.replicate levels .up ++ names.map .name := by
  have up : Path.step? "..".toList = some .up := by decide
  rw [String.toList_intercalate]
  refine (Path.stepsOf_intercalate fun s mem => (segments_of_names h levels s mem).1).trans ?_
  rw [map_append, filterMap_append, map_replicate, filterMap_replicate, up,
    filterMap_names h]

end Text

theorem components_path {n : NormalPath} (h : n.IsSpelled) : n.path.components = n.steps := by
  obtain ⟨anchor, names⟩ := n
  cases anchor with
  | root =>
    have text : (path ⟨.root, names⟩).text.toList = '/' :: ("/".intercalate names).toList := by
      rw [path, NormalPath.text, String.toList_append]
      rfl
    rw [Path.components, Path.divide, text]
    exact congrArg (.root :: ·) (stepsOf_names h 0)
  | above levels =>
    have segments := segments_of_names h levels
    refine (Path.components_eq fun s mem idle => ?_).trans (stepsOf_names h levels)
    change s ∈ (("/".intercalate (List.replicate levels ".." ++ names)).toList.splitOn
      '/').head? at mem
    change ("/".intercalate (List.replicate levels ".." ++ names)).toList = []
    rw [String.toList_intercalate] at mem ⊢
    generalize (List.replicate levels ".." ++ names).map String.toList = words at mem segments ⊢
    cases words with
    | nil => rfl
    | cons first rest =>
      -- The first segment is not idle, so the text has neither a slash nor a dot in front.
      have split : (['/'].intercalate (first :: rest)).splitOn '/' = first :: rest :=
        splitOn_intercalate '/' (fun s mem => (segments s mem).1) (by simp)
      obtain rfl : first = s := by simpa [split] using mem
      rw [(segments first mem_cons_self).2] at idle
      cases idle

theorem normalize_path (p : Path) : p.normalize.path.normalize = p.normalize := by
  rw [Path.normalize, components_path (isSpelled_normalize p), walk_steps]

end NormalPath

/-- A path that takes no idle step, and goes up before all else or not at all. -/
def Path.GoesUpFirst (p : Path) : Prop :=
  .here ∉ p.components ∧
    ∀ front back, p.components = front ++ .up :: back → ∀ c ∈ front, c = .up

theorem NormalPath.goesUpFirst_path {n : NormalPath} (h : n.IsSpelled) : n.path.GoesUpFirst := by
  rw [Path.GoesUpFirst, components_path h, steps]
  obtain ⟨anchor, names⟩ := n
  cases anchor with
  | root =>
    refine ⟨by simp, fun front back whole => ?_⟩
    have up : Path.Component.up ∈ [.root] ++ names.map .name := whole ▸ by simp
    simp at up
  | above levels =>
    refine ⟨by simp, fun front back whole c mem => ?_⟩
    rcases List.append_eq_append_iff.mp whole with ⟨more, rfl, behind⟩ | ⟨more, front, -⟩
    · have up : Path.Component.up ∈ names.map Path.Component.name := behind ▸ by simp
      simp at up
    · exact eq_of_mem_replicate (front ▸ mem_append_left _ mem)

/-! ### Directories and extensions -/

namespace Path

/-- How a path divided into its start and its segments may begin. -/
def Opens (start : Segment) (segments : List Segment) : Prop :=
  start = ['/'] ∨ start = ['.'] ∧ (∀ s ∈ segments.head?, s = []) ∨
    start = [] ∧ ∀ s ∈ segments.head?, s ≠ []

theorem trimEnd_isPrefix (segments : List Segment) : trimEnd segments <+: segments := by
  rw [trimEnd, ← reverse_suffix, reverse_reverse]
  exact dropWhile_suffix _

theorem filterMap_trimEnd (segments : List Segment) :
    (trimEnd segments).filterMap step? = segments.filterMap step? := by
  induction segments using List.reverseRecOn with
  | nil => rfl
  | append_singleton segments s ih =>
    rw [trimEnd, reverse_concat, dropWhile_cons]
    split
    · next idle =>
      rw [filterMap_append, filterMap_cons_none (by rw [step?, if_pos idle]), filterMap_nil,
        append_nil]
      exact ih
    · rw [reverse_cons, reverse_reverse]

/-- The last segment that is left takes a step. -/
theorem not_isIdle_of_trimEnd {segments before : List Segment} {s : Segment}
    (h : trimEnd segments = before ++ [s]) : isIdle s = false := by
  have last := head?_dropWhile_not isIdle segments.reverse
  rw [trimEnd, reverse_eq_iff, reverse_concat] at h
  simpa [h] using last

theorem Opens.of_isPrefix {start : Segment} {segments more : List Segment} (h : Opens start more)
    (front : segments <+: more) : Opens start segments := by
  have head (s) (mem : s ∈ segments.head?) : s ∈ more.head? := by
    obtain ⟨rest, rfl⟩ := front
    rw [head?_append, Option.mem_def.mp mem]
    rfl
  exact h.imp_right (Or.imp (And.imp_right fun all s mem => all s (head s mem))
    (And.imp_right fun all s mem => all s (head s mem)))

theorem Opens.append {start s t : Segment} {before : List Segment}
    (h : Opens start (before ++ [s])) (hs : s ≠ []) (ht : t ≠ []) :
    Opens start (before ++ [t]) := by
  cases before with
  | nil =>
    rcases h with root | ⟨-, first⟩ | ⟨relative, -⟩
    · exact .inl root
    · exact absurd (first s rfl) hs
    · exact .inr (.inr ⟨relative, by simpa using ht⟩)
  | cons => exact h

theorem opens_divide (p : Path) : Opens p.divide.1 (trimEnd p.divide.2) := by
  fun_cases divide p with
  | case1 => exact .inl rfl
  | case2 => exact .inr (.inl ⟨rfl, by simp [trimEnd]⟩)
  | case3 => exact Opens.of_isPrefix (.inr (.inl ⟨rfl, by simp⟩)) (trimEnd_isPrefix _)
  | case4 relative _ _ =>
    cases text : p.text.toList with
    | nil => exact .inr (.inr ⟨rfl, by simp [trimEnd, isIdle]⟩)
    | cons c cs =>
      refine Opens.of_isPrefix (.inr (.inr ⟨rfl, ?_⟩)) (trimEnd_isPrefix _)
      have other : c ≠ '/' := fun slash => relative cs (slash ▸ text)
      rw [List.splitOn, splitOnP_cons_eq_if_modifyHead, if_neg (by simpa using other),
        head?_modifyHead]
      simp

theorem plain_divide (p : Path) : ∀ s ∈ p.divide.2, '/' ∉ s := by
  fun_cases divide p with
  | case1 | case4 => exact fun s => notMem_of_mem_splitOn
  | case2 => exact forall_mem_nil _
  | case3 => exact forall_mem_cons.mpr ⟨not_mem_nil, fun s => notMem_of_mem_splitOn⟩

theorem steps_assemble {start : Segment} {segments : List Segment} (opens : Opens start segments)
    (plain : ∀ s ∈ segments, '/' ∉ s) :
    stepsOf (assemble start segments).text.toList = segments.filterMap step? ∧
      (assemble start segments).origin = followStart start := by
  rw [origin, isAbsolute, assemble, String.toList_ofList]
  rcases opens with rfl | ⟨rfl, first⟩ | ⟨rfl, first⟩
  · exact ⟨(stepsOf_slash _).trans (stepsOf_intercalate plain), rfl⟩
  · refine ⟨?_, by simp; rfl⟩
    cases segments with
    | nil => rfl
    | cons s segments =>
      obtain rfl : s = [] := first s rfl
      -- The dot is the first segment.
      have dotted : ['.'] ++ ['/'].intercalate ([] :: segments) =
          ['/'].intercalate (['.'] :: segments) := by
        cases segments <;> simp [intercalate]
      rw [dotted, stepsOf_intercalate (forall_mem_cons.mpr ⟨by simp, (forall_mem_cons.mp plain).2⟩)]
      rfl
  · refine ⟨stepsOf_intercalate plain, if_neg fun absolute => ?_⟩
    cases segments with
    | nil => simp at absolute
    | cons s segments =>
      obtain ⟨c, cs, rfl⟩ := exists_cons_of_ne_nil (first s rfl)
      have head : c = '/' := by cases segments <;> simpa [intercalate] using absolute
      simp [head] at plain

theorem step?_of_not_isIdle {s : Segment} (steps : isIdle s = false) (up : s ≠ ['.', '.']) :
    step? s = some (.name (String.ofList s)) := by
  rw [step?, steps, if_neg Bool.false_ne_true, if_neg up]

theorem parent?_of_trimEnd {p : Path} {before : List Segment} {s : Segment}
    (trimmed : trimEnd p.divide.2 = before ++ [s]) :
    p.parent? = some (assemble p.divide.1 (trimEnd before)) := by
  rw [parent?]
  generalize p.divide = divided at trimmed ⊢
  obtain ⟨start, segments⟩ := divided
  obtain ⟨first, rest, split⟩ := exists_cons_of_ne_nil (concat_ne_nil s before)
  rw [split] at trimmed
  simp only [trimmed]
  rw [← split, dropLast_concat]

theorem fileName?_of_trimEnd {p : Path} {before : List Segment} {s : Segment}
    (trimmed : trimEnd p.divide.2 = before ++ [s]) :
    p.fileName? = if s = ['.', '.'] then none else some (p.divide.1, before, s) := by
  rw [fileName?]
  generalize p.divide = divided at trimmed ⊢
  obtain ⟨start, segments⟩ := divided
  simp only [trimmed, getLast?_concat, dropLast_concat]

/-- The segments that take steps, and the step of the last of them. -/
theorem trimEnd_of_steps {p : Path} {front : List Component} {last : Component}
    (steps : stepsOf p.text.toList = front ++ [last]) :
    ∃ before s, trimEnd p.divide.2 = before ++ [s] ∧ before.filterMap step? = front ∧
      step? s = some last := by
  have taken := p.divide_steps.1
  rw [← filterMap_trimEnd, steps] at taken
  rcases eq_nil_or_concat (trimEnd p.divide.2) with none | ⟨before, s, trimmed⟩
  · simp [none] at taken
  · rw [concat_eq_append] at trimmed
    obtain ⟨c, step⟩ : ∃ c, step? s = some c := by
      rw [step?, not_isIdle_of_trimEnd trimmed, if_neg Bool.false_ne_true]
      split <;> exact ⟨_, rfl⟩
    rw [trimmed, filterMap_append, filterMap_cons_some step, filterMap_nil] at taken
    obtain ⟨all, same⟩ := append_inj' taken rfl
    exact ⟨before, s, trimmed, all, step.trans (congrArg some (cons.inj same).1)⟩

/-- The directory of a path is reached with all of its steps but the last one. -/
theorem steps_parent {p : Path} {front : List Component} {last : Component}
    (steps : stepsOf p.text.toList = front ++ [last]) :
    stepsOf (p.parent?.getD .empty).text.toList = front ∧
      (p.parent?.getD .empty).origin = p.origin := by
  obtain ⟨before, s, trimmed, taken, -⟩ := trimEnd_of_steps steps
  have front : trimEnd before <+: trimEnd p.divide.2 :=
    (trimEnd_isPrefix before).trans (trimmed ▸ prefix_append before [s])
  obtain ⟨steps, start⟩ := steps_assemble (p.opens_divide.of_isPrefix front) fun s mem =>
    p.plain_divide s ((front.trans (trimEnd_isPrefix _)).subset mem)
  rw [parent?_of_trimEnd trimmed, Option.getD_some, steps, start, filterMap_trimEnd, taken]
  exact ⟨rfl, p.divide_steps.2⟩

/-- A step to a source, if it has a name. -/
def Component.dressed : Component → Component
  | .name text =>
      .name (String.ofList ((divideName text.toList).1 ++ '.' :: sourceExtension.toList))
  | c => c

theorem divideName_subset (name : Segment) : (divideName name).1 ⊆ name := by
  rw [divideName]
  split
  · exact Subset.refl _
  · exact take_subset _ _

theorem step?_append_extension (stem : Segment) :
    step? (stem ++ '.' :: sourceExtension.toList) =
      some (.name (String.ofList (stem ++ '.' :: sourceExtension.toList))) := by
  have long : 2 < (stem ++ '.' :: sourceExtension.toList).length := by
    simp [sourceExtension]
  generalize stem ++ '.' :: sourceExtension.toList = s at long ⊢
  rw [step?, isIdle, if_neg, if_neg]
  · rintro rfl
    simp at long
  · simp only [Bool.or_eq_true, decide_eq_true_eq]
    rintro (rfl | rfl) <;> simp at long

/-- The extension of a source changes nothing but the last step. -/
theorem steps_setExtension {p : Path} {front : List Component} {last : Component}
    (steps : stepsOf p.text.toList = front ++ [last]) :
    stepsOf (p.setExtension sourceExtension).text.toList = front ++ [last.dressed] ∧
      (p.setExtension sourceExtension).origin = p.origin := by
  obtain ⟨before, s, trimmed, taken, step⟩ := trimEnd_of_steps steps
  have moves := not_isIdle_of_trimEnd trimmed
  rw [setExtension, fileName?_of_trimEnd trimmed]
  by_cases up : s = ['.', '.']
  · obtain rfl : last = .up := by
      rw [up] at step
      exact (Option.some.inj step).symm
    rw [if_pos up]
    exact ⟨steps, rfl⟩
  · obtain rfl : last = .name (String.ofList s) := by
      rw [step?_of_not_isIdle moves up] at step
      exact (Option.some.inj step).symm
    rw [if_neg up]
    have opens : Opens p.divide.1
      (before ++ [(divideName s).1 ++ '.' :: sourceExtension.toList]) := by
      refine Opens.append (trimmed ▸ p.opens_divide) ?_ (by simp)
      rintro rfl
      cases moves
    have plain (t) (mem : t ∈ before ++ [s]) : '/' ∉ t :=
      p.plain_divide t ((trimEnd_isPrefix _).subset (trimmed ▸ mem))
    rw [forall_mem_append, forall_mem_singleton] at plain
    obtain ⟨steps, start⟩ := steps_assemble opens (forall_mem_append.mpr ⟨plain.1, by
      simpa [sourceExtension] using fun mem => plain.2 (divideName_subset s mem)⟩)
    refine ⟨steps.trans ?_, start.trans p.divide_steps.2⟩
    rw [filterMap_append, taken, filterMap_cons_some (step?_append_extension _), filterMap_nil,
      Component.dressed, String.toList_ofList]

theorem steps_of_fileName? {p : Path} (file : p.fileName?.isSome) :
    ∃ front name, stepsOf p.text.toList = front ++ [.name name] := by
  rcases eq_nil_or_concat (trimEnd p.divide.2) with none | ⟨before, s, trimmed⟩
  · rw [fileName?] at file
    simp [none] at file
  · rw [concat_eq_append] at trimmed
    rw [fileName?_of_trimEnd trimmed] at file
    have other : s ≠ ['.', '.'] := by
      rintro rfl
      simp at file
    have named := step?_of_not_isIdle (not_isIdle_of_trimEnd trimmed) other
    refine ⟨before.filterMap step?, String.ofList s, ?_⟩
    rw [← p.divide_steps.1, ← filterMap_trimEnd, trimmed, filterMap_append,
      filterMap_cons_some named, filterMap_nil]

end Path

/-- Where an import points depends on the normal form of the directory it starts from. -/
theorem importPath_congr {p p' root root' : Path} {i : Import}
    (file : (Path.mk i.path).fileName?.isSome)
    (dirs : (p.parent?.getD .empty).normalize = (p'.parent?.getD .empty).normalize)
    (roots : root.normalize = root'.normalize) : importPath p i root = importPath p' i root' := by
  obtain ⟨front, name, steps⟩ := Path.steps_of_fileName? file
  have bases {base base' : Path} (same : base.normalize = base'.normalize) :
      ((base.join ⟨i.path⟩).setExtension sourceExtension).normalize =
        ((base'.join ⟨i.path⟩).setExtension sourceExtension).normalize := by
    cases absolute : (Path.mk i.path).isAbsolute with
    | true => rw [Path.join_of_isAbsolute absolute, Path.join_of_isAbsolute absolute]
    | false =>
      have walk (base : Path) : ((base.join ⟨i.path⟩).setExtension sourceExtension).normalize =
          (front ++ [Path.Component.dressed (.name name)]).foldl .step base.normalize := by
        obtain ⟨joined, start⟩ := Path.steps_join (a := base) absolute
        rw [steps, ← append_assoc] at joined
        obtain ⟨dressed, start'⟩ := Path.steps_setExtension joined
        rw [Path.normalize_eq, dressed, start', start, append_assoc, foldl_append,
          ← Path.normalize_eq]
      rw [walk, walk, same]
  rw [importPath, importPath]
  split
  · exact bases roots
  · exact bases dirs

theorem NormalPath.step_name_inj {m n : NormalPath} (name : String)
    (same : m.step (.name name) = n.step (.name name)) : m = n := by
  obtain ⟨anchor, names⟩ := m
  obtain ⟨anchor', names'⟩ := n
  simpa [step] using same

theorem Path.normalize_of_steps {p : Path} {front : List Path.Component} {name : String}
    (steps : Path.stepsOf p.text.toList = front ++ [.name name]) :
    p.normalize = (p.parent?.getD .empty).normalize.step (.name name) := by
  obtain ⟨taken, start⟩ := Path.steps_parent steps
  rw [Path.normalize_eq, steps, foldl_append, Path.normalize_eq, taken, start]
  rfl

/-- A file and its normal form have the same name. -/
theorem Path.steps_normalize {p : Path} {front : List Path.Component} {name : String}
    (steps : Path.stepsOf p.text.toList = front ++ [.name name]) :
    ∃ front, Path.stepsOf p.normalize.path.text.toList = front ++ [.name name] := by
  have last : p.normalize.path.components.getLast? = some (.name name) := by
    rw [NormalPath.components_path (NormalPath.isSpelled_normalize p), NormalPath.steps,
      Path.normalize_of_steps steps, NormalPath.step]
    simp
  have start : Path.startStep? p.normalize.path.divide.1 ≠ some (.name name) := by
    rw [Path.startStep?]
    split
    · simp
    · split <;> simp
  rw [Path.components, getLast?_append, p.normalize.path.divide_steps.1] at last
  refine ⟨_, (getLast?_eq_some_iff.mp ?_).choose_spec⟩
  cases taken : (Path.stepsOf p.normalize.path.text.toList).getLast? with
  | none =>
    rw [taken, Option.none_or] at last
    cases opening : Path.startStep? p.normalize.path.divide.1 <;> simp_all
  | some step =>
    rw [taken] at last
    exact last

/-- The directory of a file is found from its normal form. -/
theorem Path.normalize_parent {p : Path} (file : p.fileName?.isSome) :
    (p.normalize.path.parent?.getD .empty).normalize = (p.parent?.getD .empty).normalize := by
  obtain ⟨front, name, steps⟩ := Path.steps_of_fileName? file
  obtain ⟨front', steps'⟩ := Path.steps_normalize steps
  refine NormalPath.step_name_inj name ?_
  rw [← Path.normalize_of_steps steps', ← Path.normalize_of_steps steps, NormalPath.normalize_path]

/-- The normal form of a path is normal: it is its own normal form, takes no idle step, and goes up
before all else. Whatever is joined to a path may be joined to its normal form instead. If a path
ends in a name, imports of the unit there are found from any spelling of the path, whether they
start at its directory, at a given root, or at the root that an entry has by default. -/
theorem normalize_lexically (a b : Path) :
    a.normalize.path.normalize = a.normalize ∧
    (a.join b).normalize = (a.normalize.path.join b).normalize ∧
    a.normalize.path.GoesUpFirst ∧
    (a.fileName?.isSome → ∀ (i : Import) (root : Path) (settings : Settings),
      (Path.mk i.path).fileName?.isSome →
      importPath a.normalize.path i root.normalize.path = importPath a i root ∧
        importPath a.normalize.path i (settings.layout a.normalize.path).searchRoot =
          importPath a i (settings.layout a).searchRoot) := by
  have normal := NormalPath.normalize_path a
  refine ⟨normal, ?_, NormalPath.goesUpFirst_path (NormalPath.isSpelled_normalize a), ?_⟩
  · cases absolute : b.isAbsolute with
    | true => rw [Path.join_of_isAbsolute absolute, Path.join_of_isAbsolute absolute]
    | false => rw [Path.normalize_join absolute, Path.normalize_join absolute, normal]
  · intro file i root settings source
    have dirs := Path.normalize_parent file
    refine ⟨importPath_congr source dirs (NormalPath.normalize_path root),
      importPath_congr source dirs ?_⟩
    rw [Settings.layout, Settings.layout]
    cases settings.searchRoot with
    | none => exact dirs
    | some root => rfl

/-- An import of `"m"`. -/
def importOfM : Import :=
  ⟨default, "m", true, default⟩

theorem normalize_lexically_detour :
    (Path.mk "x/../a/b.ark").fileName?.isSome ∧ (Path.mk importOfM.path).fileName?.isSome ∧
      importPath ⟨"x/../a/b.ark"⟩ importOfM ⟨""⟩ = ⟨.above 0, ["a", "m.ark"]⟩ ∧
      importPath (Path.mk "x/../a/b.ark").normalize.path importOfM (Path.mk "").normalize.path =
        importPath ⟨"x/../a/b.ark"⟩ importOfM ⟨""⟩ := by
  have file : (Path.mk "x/../a/b.ark").fileName?.isSome := by decide +kernel
  have source : (Path.mk importOfM.path).fileName?.isSome := by decide +kernel
  exact ⟨file, source, by decide +kernel,
    ((normalize_lexically _ .empty).2.2.2 file importOfM ⟨""⟩ {} source).1⟩

/-- A path that ends by going up has another directory than its normal form. -/
theorem importPath_depends_on_spelling :
    importPath ⟨"a/b/.."⟩ importOfM ⟨""⟩ = ⟨.above 0, ["a", "b", "m.ark"]⟩ ∧
      importPath (Path.mk "a/b/..").normalize.path importOfM ⟨""⟩ = ⟨.above 0, ["m.ark"]⟩ := by
  decide +kernel

end ArkLang
