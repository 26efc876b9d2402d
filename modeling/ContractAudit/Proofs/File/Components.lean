import Mathlib.Data.List.Induction
import Mathlib.Tactic.SplitIfs
import ContractAudit.File.Path

/-!
The components of paths.

The components of a path are kept on a stack while its parts are gone through. Above the `..` at the
bottom of the stack there are only names (`Settled`), so that a path without `..` among its
components never went above the place it starts from: what was on the stack before stays below all
that it adds (`foldl_step_append`).

* `parts_append`, `parts_joinWith`: paths are cut where they were put together.
* `components_clean`: a cleaned path has the components of the path.
* `isLocal_iff_stays`: a path is local exactly if it never goes up more often than it went down.
* `components_join`: the components of a local path stand behind those of what it is joined to.
-/

namespace ContractAudit

/-! ### Cutting at a byte -/

namespace Text

variable {c : UInt8} {t : Text}

lemma indexOf?_of_not_mem (h : c ∉ t) : indexOf? [c] t = none := by
  induction t with
  | nil => rfl
  | cons b rest ih =>
    obtain ⟨hb, hrest⟩ := not_or.mp (List.mem_cons.not.mp h)
    simp [indexOf?, hb, ih hrest]

lemma indexOf?_append {before : Text} (h : c ∉ before) (behind : Text) :
    indexOf? [c] (before ++ c :: behind) = some before.length := by
  induction before with
  | nil => simp [indexOf?]
  | cons b rest ih =>
    obtain ⟨hb, hrest⟩ := not_or.mp (List.mem_cons.not.mp h)
    simp [indexOf?, hb, ih hrest]

/-- A byte that is not there cuts nothing. -/
lemma cut?_of_not_mem (h : c ∉ t) : cut? t [c] = none := by
  rw [cut?, indexOf?_of_not_mem h]
  rfl

/-- A text is cut at the first occurrence of a byte. -/
lemma cut?_append {before : Text} (h : c ∉ before) (behind : Text) :
    cut? (before ++ c :: behind) [c] = some (before, behind) := by
  rw [cut?, indexOf?_append h]
  simp

lemma splitOn_append (a b : Text) : List.splitOn c (a ++ c :: b) = List.splitOn c a ++
    List.splitOn c b := by
  simp only [List.splitOn_eq_splitOnP]
  exact List.splitOnP_append_cons a b (beq_self_eq_true c)

lemma splitTimes_eq {n : Nat} (h : t.length ≤ n) : splitTimes [c] n t = List.splitOn c t := by
  induction n generalizing t with
  | zero =>
    obtain rfl := List.length_eq_zero_iff.mp (Nat.le_zero.mp h)
    exact (List.splitOn_nil c).symm
  | succ n ih =>
    by_cases hc : c ∈ t
    · obtain ⟨before, behind, rfl, hbefore⟩ := List.eq_append_cons_of_mem hc
      have hbehind : behind.length ≤ n := by
        rw [List.length_append, List.length_cons] at h
        omega
      rw [splitTimes, cut?_append hbefore, splitOn_append, List.splitOn_eq_singleton
        hbefore, ← ih hbehind]
      rfl
    · rw [splitTimes, cut?_of_not_mem hc, List.splitOn_eq_singleton hc]

/-- To cut at a text of one byte is to cut at the byte. -/
lemma splitOn_singleton (t : Text) : t.splitOn [c] = List.splitOn c t :=
  splitTimes_eq (Nat.le_refl _)

end Text

namespace Path

/-! ### Parts -/

lemma parts_eq (t : Text) : parts t = List.splitOn slash t := Text.splitOn_singleton t

lemma parts_append (a b : Text) : parts (a ++ slash :: b) = parts a ++ parts b := by
  simp only [parts_eq]
  exact Text.splitOn_append a b

variable {t part : Text} {ps done : List Text} {rooted : Bool}

/-- A part has no slash. -/
lemma slash_not_mem_of_mem_parts (h : part ∈ parts t) : slash ∉ part := by
  induction hn : t.length using Nat.strongRecOn generalizing t with
  | ind n ih =>
    by_cases hslash : slash ∈ t
    · obtain ⟨before, behind, rfl, hbefore⟩ := List.eq_append_cons_of_mem hslash
      rw [parts_append, parts_eq before, List.splitOn_eq_singleton hbefore, List.singleton_append,
        List.mem_cons] at h
      rcases h with rfl | h
      · exact hbefore
      · rw [List.length_append, List.length_cons] at hn
        exact ih behind.length (by omega) h rfl
    · rw [parts_eq, List.splitOn_eq_singleton hslash, List.mem_singleton] at h
      exact h ▸ hslash

lemma parts_joinWith (hps : ps ≠ []) (h : ∀ part ∈ ps, slash ∉ part) :
    parts (Text.joinWith "/" ps) = ps := by
  rw [parts_eq]
  exact List.splitOn_intercalate slash h hps

/-! ### One part -/

/-- A part that leads nowhere: it is empty or the place itself. -/
def IsIdle (part : Text) : Prop := part = [] ∨ part = self

instance (part : Text) : Decidable (IsIdle part) :=
  inferInstanceAs (Decidable (part = [] ∨ part = self))

/-- A part that leads down: it is neither idle nor the place above. -/
def IsName (part : Text) : Prop := ¬IsIdle part ∧ part ≠ up

instance (part : Text) : Decidable (IsName part) :=
  inferInstanceAs (Decidable (¬IsIdle part ∧ part ≠ up))

lemma part_cases (part : Text) : IsIdle part ∨ part = up ∨ IsName part := by
  rw [IsName]
  grind

lemma not_isIdle_up : ¬IsIdle up := by decide

lemma step_of_isIdle (h : IsIdle part) (rooted : Bool) (done : List Text) :
    step rooted done part = done := by
  rcases h with rfl | rfl <;> simp [step]

lemma step_of_isName (h : IsName part) (rooted : Bool) (done : List Text) :
    step rooted done part = part :: done := by
  obtain ⟨hidle, hup⟩ := h
  obtain ⟨hempty, hself⟩ := not_or.mp hidle
  simp [step, hempty, hself, hup]

lemma step_up_nil (rooted : Bool) : step rooted [] up = if rooted then [] else [up] := rfl

lemma step_up_cons (rooted : Bool) (last : Text) (before : List Text) :
    step rooted (last :: before) up = if last = up then up :: last :: before else before := by
  have hidle : ¬(up.isEmpty || up == self) = true := by decide
  simp [step, hidle]

/-! ### The stack of components -/

/-- A stack as it is while parts are gone through: names above the `..` that lead out of the path,
of which a rooted path has none. -/
def Settled (rooted : Bool) (done : List Text) : Prop :=
  ∃ names ups, done = names ++ List.replicate ups up ∧ (∀ part ∈ names, IsName part) ∧
    (rooted = true → ups = 0)

lemma Settled.step (h : Settled rooted done) (part : Text) :
    Settled rooted (step rooted done part) := by
  obtain ⟨names, ups, rfl, hnames, hups⟩ := h
  rcases part_cases part with hidle | rfl | hname
  · rw [step_of_isIdle hidle]
    exact ⟨names, ups, rfl, hnames, hups⟩
  · cases names with
    | nil =>
      cases ups with
      | zero =>
        rw [List.nil_append, List.replicate_zero, step_up_nil]
        split_ifs with hrooted
        · exact ⟨[], 0, rfl, hnames, fun _ => rfl⟩
        · exact ⟨[], 1, rfl, hnames, fun h => absurd h hrooted⟩
      | succ ups =>
        rw [List.nil_append, List.replicate_succ, step_up_cons, if_pos rfl]
        exact ⟨[], ups + 2, rfl, hnames, fun h => absurd (hups h) (Nat.succ_ne_zero ups)⟩
    | cons name names =>
      obtain ⟨hname, hnames⟩ := List.forall_mem_cons.mp hnames
      rw [List.cons_append, step_up_cons, if_neg hname.2]
      exact ⟨names, ups, rfl, hnames, hups⟩
  · rw [step_of_isName hname]
    exact ⟨part :: names, ups, rfl, List.forall_mem_cons.mpr ⟨hname, hnames⟩, hups⟩

lemma settled_foldl (rooted : Bool) (ps : List Text) :
    Settled rooted (ps.foldl (step rooted) []) := by
  induction ps using List.reverseRecOn with
  | nil => exact ⟨[], 0, rfl, by simp, fun _ => rfl⟩
  | append_singleton ps part ih =>
    rw [List.foldl_append]
    exact ih.step part

/-- What leads out of a path is never taken off the stack. -/
lemma up_mem_step (h : up ∈ done) (rooted : Bool) (part : Text) : up ∈ step rooted done part := by
  rcases part_cases part with hidle | rfl | hname
  · rwa [step_of_isIdle hidle]
  · cases done with
    | nil => cases h
    | cons last before =>
      rw [step_up_cons]
      split_ifs with hlast
      · exact List.mem_cons_self ..
      · exact (List.mem_cons.mp h).resolve_left (Ne.symm hlast)
  · rw [step_of_isName hname]
    exact List.mem_cons_of_mem _ h

/-- A part that does not lead out of the path leaves alone what lies below the stack. -/
lemma step_append (h : up ∉ step false done part) (rooted : Bool) (base : List Text) :
    step rooted (done ++ base) part = step false done part ++ base := by
  rcases part_cases part with hidle | rfl | hname
  · rw [step_of_isIdle hidle, step_of_isIdle hidle]
  · cases done with
    | nil => exact absurd (List.mem_singleton_self up) h
    | cons last before =>
      rw [step_up_cons] at h
      split_ifs at h with hlast
      · exact absurd (List.mem_cons_self ..) h
      · rw [List.cons_append, step_up_cons, step_up_cons, if_neg hlast, if_neg hlast]
  · rw [step_of_isName hname, step_of_isName hname]
    rfl

/-- **Parts that do not lead out of the path leave alone what lies below the stack.** -/
lemma foldl_step_append (h : up ∉ ps.foldl (step false) []) (rooted : Bool) (base : List Text) :
    ps.foldl (step rooted) base = ps.foldl (step false) [] ++ base := by
  induction ps using List.reverseRecOn with
  | nil => rfl
  | append_singleton ps part ih =>
    simp only [List.foldl_append, List.foldl_cons, List.foldl_nil] at h ⊢
    have hbefore : up ∉ ps.foldl (step false) [] := fun hup => h (up_mem_step hup false part)
    rw [ih hbefore, step_append h]

/-! ### Paths that stay below -/

/-- How far below its start some parts lead: the names less the ways up. -/
def level (ps : List Text) : Int := ps.countP (IsName ·) - ps.countP (· = up)

/-- The path is neither empty nor rooted, and behind none of its parts has it gone up more often
than down. -/
def Stays (t : Text) : Prop := t ≠ [] ∧ isRooted t = false ∧ ∀ front, front <+: parts t →
    0 ≤ level front

lemma level_concat (ps : List Text) (part : Text) :
    level (ps ++ [part]) = level ps + if part = up then -1 else if IsIdle part then 0 else 1 := by
  have hup : ¬IsName up := fun h => h.2 rfl
  simp only [level, List.countP_append, List.countP_singleton, IsName]
  split_ifs <;> simp_all <;> omega

/-- Until a path leads out, its stack is as high as the path is deep. -/
lemma length_foldl_step (h : up ∉ ps.foldl (step false) []) :
    ((ps.foldl (step false) []).length : Int) = level ps := by
  induction ps using List.reverseRecOn with
  | nil => rfl
  | append_singleton ps part ih =>
    rw [List.foldl_append, List.foldl_cons, List.foldl_nil] at h ⊢
    have hbefore : up ∉ ps.foldl (step false) [] := fun hup => h (up_mem_step hup false part)
    rw [level_concat, ← ih hbefore]
    rcases part_cases part with hidle | rfl | hname
    · have hne : part ≠ up := by
        rintro rfl
        exact not_isIdle_up hidle
      rw [step_of_isIdle hidle, if_neg hne, if_pos hidle, Int.add_zero]
    · cases hdone : ps.foldl (step false) [] with
      | nil =>
        rw [hdone] at h
        exact absurd (List.mem_singleton_self up) h
      | cons last before =>
        have hlast : last ≠ up := fun heq => hbefore (hdone ▸ heq ▸ List.mem_cons_self ..)
        rw [step_up_cons, if_neg hlast, if_pos rfl, List.length_cons]
        omega
    · rw [step_of_isName hname, if_neg hname.2, if_neg hname.1, List.length_cons]
      omega

/-- Parts lead out exactly if some of them, from the first on, lead above the start. -/
lemma up_not_mem_iff (ps : List Text) :
    up ∉ ps.foldl (step false) [] ↔ ∀ front, front <+: ps → 0 ≤ level front := by
  constructor
  · intro h front hfront
    obtain ⟨behind, rfl⟩ := hfront
    have hup : up ∉ front.foldl (step false) [] := by
      intro hup
      rw [List.foldl_append] at h
      exact h (behind.foldlRecOn (step false) hup fun done hdone part _ => up_mem_step
        hdone false part)
    rw [← length_foldl_step hup]
    omega
  · intro h
    induction ps using List.reverseRecOn with
    | nil => simp
    | append_singleton ps part ih =>
      have hbefore := ih fun front hfront => h front (hfront.trans (List.prefix_append ps [part]))
      have hlevel := h _ List.prefix_rfl
      rw [level_concat, ← length_foldl_step hbefore] at hlevel
      rw [List.foldl_append, List.foldl_cons, List.foldl_nil]
      rcases part_cases part with hidle | rfl | hname
      · rwa [step_of_isIdle hidle]
      · rw [if_pos rfl] at hlevel
        cases hdone : ps.foldl (step false) [] with
        | nil =>
          rw [hdone, List.length_nil] at hlevel
          omega
        | cons last before =>
          rw [hdone] at hbefore
          obtain ⟨hlast, hbefore⟩ := not_or.mp (List.mem_cons.not.mp hbefore)
          rwa [step_up_cons, if_neg (Ne.symm hlast)]
      · rw [step_of_isName hname, List.mem_cons, not_or]
        exact ⟨Ne.symm hname.2, hbefore⟩

/-- What leads out of a path comes first among its components. -/
lemma head?_components_ne_up_iff :
    (reduce false ps).head? ≠ some up ↔ up ∉ ps.foldl (step false) [] := by
  obtain ⟨names, ups, hdone, hnames, -⟩ := settled_foldl false ps
  have hnot : up ∉ names := fun hup => (hnames up hup).2 rfl
  rw [reduce, hdone]
  cases ups with
  | zero =>
    rw [List.replicate_zero, List.append_nil, List.head?_reverse]
    exact iff_of_true (fun h => hnot (List.mem_of_getLast? h)) hnot
  | succ ups => simp [List.replicate_succ']

lemma isLocal_iff :
    isLocal t = true ↔ t ≠ [] ∧ isRooted t = false ∧ up ∉ (parts t).foldl (step false) [] := by
  rw [← head?_components_ne_up_iff, isLocal, components]
  cases isRooted t <;> simp

/-- **A path is local exactly if it stays below the place it starts from.** -/
lemma isLocal_iff_stays : isLocal t = true ↔ Stays t := by
  rw [isLocal_iff, up_not_mem_iff, Stays]

/-! ### Cleaning -/

lemma foldl_step_names {names : List Text} (h : ∀ part ∈ names, IsName part) (rooted : Bool)
    (done : List Text) :
    names.foldl (step rooted) done = names.reverse ++ done := by
  induction names generalizing done with
  | nil => rfl
  | cons name names ih =>
    obtain ⟨hname, hnames⟩ := List.forall_mem_cons.mp h
    rw [List.foldl_cons, step_of_isName hname, ih hnames, List.reverse_cons, List.append_assoc]
    rfl

lemma foldl_step_ups (ups : Nat) : (List.replicate ups up).foldl (step false) [] =
    List.replicate ups up := by
  induction ups with
  | zero => rfl
  | succ ups ih =>
    rw [List.replicate_succ', List.foldl_append, ih, List.foldl_cons,
      List.foldl_nil, ← List.replicate_succ']
    cases ups <;> rfl

/-- Components are left as they are. -/
lemma reduce_reduce (rooted : Bool) (ps : List Text) :
    reduce rooted (reduce rooted ps) = reduce rooted ps := by
  obtain ⟨names, ups, hdone, hnames, hrooted⟩ := settled_foldl rooted ps
  have hups : (List.replicate ups up).foldl (step rooted) [] = List.replicate ups up := by
    cases rooted with
    | false => exact foldl_step_ups ups
    | true => rw [hrooted rfl]; rfl
  have hreverse : ∀ part ∈ names.reverse, IsName part := fun part hpart =>
    hnames part (List.mem_reverse.mp hpart)
  rw [reduce, reduce, hdone, List.reverse_append, List.reverse_replicate, List.foldl_append, hups,
    foldl_step_names hreverse, List.reverse_reverse, List.reverse_append, List.reverse_replicate]

/-- Components are neither empty nor do they have slashes. -/
lemma ne_nil_of_mem_components (h : part ∈ components t) : part ≠ [] := by
  obtain ⟨names, ups, hdone, hnames, -⟩ := settled_foldl (isRooted t) (parts t)
  rw [components, reduce, List.mem_reverse, hdone, List.mem_append] at h
  rcases h with h | h
  · exact fun hnil => (hnames part h).1 (.inl hnil)
  · rw [List.eq_of_mem_replicate h]
    decide

lemma mem_step {p : Text} (h : p ∈ step rooted done part) : p ∈ done ∨ p = part := by
  rcases part_cases part with hidle | rfl | hname
  · exact .inl (step_of_isIdle hidle rooted done ▸ h)
  · cases done with
    | nil =>
      rw [step_up_nil] at h
      split_ifs at h
      · cases h
      · exact .inr (List.mem_singleton.mp h)
    | cons last before =>
      rw [step_up_cons] at h
      split_ifs at h
      · exact (List.mem_cons.mp h).symm
      · exact .inl (List.mem_cons_of_mem _ h)
  · rw [step_of_isName hname] at h
    exact (List.mem_cons.mp h).symm

lemma mem_of_mem_foldl_step {p : Text} (h : p ∈ ps.foldl (step rooted) []) : p ∈ ps := by
  induction ps using List.reverseRecOn with
  | nil => exact h
  | append_singleton ps part ih =>
    rw [List.foldl_append] at h
    exact List.mem_append.mpr ((mem_step h).imp ih List.mem_singleton.mpr)

lemma slash_not_mem_of_mem_components (h : part ∈ components t) : slash ∉ part :=
  slash_not_mem_of_mem_parts (mem_of_mem_foldl_step (List.mem_reverse.mp h))

/-- The components of a path with slashes between them. -/
lemma joinWith_components_cases (t : Text) :
    components t = [] ∧ Text.joinWith "/" (components t) = [] ∨
      ∃ c more, Text.joinWith "/" (components t) = c :: more ∧ c ≠ slash := by
  cases hcomponents : components t with
  | nil => exact .inl ⟨rfl, rfl⟩
  | cons part rest =>
    have hmem : part ∈ components t := hcomponents ▸ List.mem_cons_self ..
    obtain ⟨c, more, rfl⟩ := List.exists_cons_of_ne_nil (ne_nil_of_mem_components hmem)
    have hc : c ≠ slash := by
      rintro rfl
      exact slash_not_mem_of_mem_components hmem (List.mem_cons_self ..)
    refine .inr ⟨c, ?_⟩
    cases rest with
    | nil => exact ⟨more, List.intercalate_singleton .., hc⟩
    | cons => exact ⟨_, List.intercalate_cons_cons, hc⟩

lemma reduce_parts_joinWith (t : Text) :
    reduce (isRooted t) (parts (Text.joinWith "/" (components t))) = components t := by
  rcases eq_or_ne (components t) [] with hnil | hne
  · rw [hnil]
    rfl
  · rw [parts_joinWith hne fun _ => slash_not_mem_of_mem_components]
    exact reduce_reduce ..

lemma isRooted_cons (c : UInt8) (rest : Text) : isRooted (c :: rest) = (slash == c) :=
  Bool.and_true _

lemma isRooted_clean (t : Text) : isRooted (clean t) = isRooted t := by
  rw [clean]
  rcases joinWith_components_cases t with ⟨-, hway⟩ | ⟨c, more, hway, hc⟩
  · rw [hway]
    cases isRooted t <;> rfl
  · rw [hway]
    cases isRooted t with
    | true => rfl
    | false => simpa [isRooted_cons] using Ne.symm hc

/-- **Cleaning keeps the components of a path.** -/
lemma components_clean (t : Text) : components (clean t) = components t := by
  have hway := reduce_parts_joinWith t
  rw [components, isRooted_clean, clean]
  cases hrooted : isRooted t with
  | true =>
    rw [hrooted] at hway
    have hparts : parts (slash :: Text.joinWith "/" (components t)) =
        [] :: parts (Text.joinWith "/" (components t)) := parts_append [] _
    exact (congrArg (reduce true) hparts).trans hway
  | false =>
    rw [hrooted] at hway
    rcases joinWith_components_cases t with ⟨hnil, hempty⟩ | ⟨c, more, hcons, -⟩
    · rw [hempty, hnil]
      decide
    · rw [hcons] at hway ⊢
      exact hway

lemma components_append {a b : Text} (ha : a ≠ []) (hb : up ∉ (parts b).foldl (step false) []) :
    components (a ++ slash :: b) = components a ++ reduce false (parts b) := by
  obtain ⟨c, more, rfl⟩ := List.exists_cons_of_ne_nil ha
  rw [components, parts_append, List.cons_append, isRooted_cons, ← isRooted_cons c more, reduce,
    List.foldl_append, foldl_step_append hb, List.reverse_append]
  rfl

lemma join_nil (ht : t ≠ []) : join [[], t] = clean t := by
  have hfilter : [[], t].filter (!·.isEmpty) = [t] := by simp [ht]
  rw [join, hfilter]
  exact congrArg clean (List.intercalate_singleton ..)

lemma join_of_ne_nil {root : Text} (hroot : root ≠ []) (ht : t ≠ []) :
    join [root, t] = clean (root ++ slash :: t) := by
  have hfilter : [root, t].filter (!·.isEmpty) = [root, t] := by simp [hroot, ht]
  have hway : Text.joinWith "/" [root, t] = root ++ slash :: t := by
    rw [Text.joinWith, List.intercalate_cons_cons, List.intercalate_singleton, List.append_assoc]
    rfl
  rw [join, hfilter]
  exact congrArg clean hway

/-- **The components of a local path stand behind those of the path that it is joined to.** -/
lemma components_join (h : isLocal t = true) (root : Text) :
    components (join [root, t]) = components root ++ components t := by
  obtain ⟨hne, hrooted, hup⟩ := isLocal_iff.mp h
  rcases eq_or_ne root [] with rfl | hroot
  · rw [join_nil hne, components_clean]
    rfl
  · rw [join_of_ne_nil hroot hne, components_clean, components_append hroot hup,
      components.eq_def t, hrooted]

/-- A path is rooted if the path that it is joined to is. -/
lemma isRooted_join (h : isLocal t = true) (root : Text) :
    isRooted (join [root, t]) = isRooted root := by
  obtain ⟨hne, hrooted, -⟩ := isLocal_iff.mp h
  cases root with
  | nil => rw [join_nil hne, isRooted_clean, hrooted]; rfl
  | cons c more =>
    rw [join_of_ne_nil (List.cons_ne_nil c more) hne, isRooted_clean, List.cons_append,
      isRooted_cons, ← isRooted_cons c more]

end Path

end ContractAudit
