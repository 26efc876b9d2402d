import ContractAudit.Proofs.Flow.Placement
import ContractAudit.Proofs.Flow.Places

/-!
State writes and the scopes of locals.

The scopes of locals nest: a local is visible behind its declaration up to the end of the block,
branch or loop body around it, and one in the head of a loop up to the end of the loop. Lowering
keeps one list of locals instead, which only grows, in the order in which it comes across
declarations.

* `declaredIn`: the names that a statement declares. Unlike `Expr.isDeclaration` it knows types with
  a point or round brackets in them, and values that end with an increment.
* `sitesOf`: the expressions of a body, each with the locals that are visible there.
* `Part.notes`: the names that lowering adds to its list.
* `Covered`, `covered_sitesOf`: whatever is visible somewhere has been declared before.
* `stateWrites_iff_of_scopes`: a statement that overwrites a state variable is a state write exactly
  if lowering has not come across a local of that name. So state writes respect scopes exactly where
  that list and the visible locals agree on the variable. Where lowering reads all declarations
  right, a state write is never one to a local.
-/

namespace ContractAudit.Flow

open Source (Expr Token Stmt Contract Function SourceUnit isBuiltin)

/-! ### Declarations -/

/-- The name that a run of tokens declares. Two operands never stand side by side in an expression,
so a name right behind a word or a closing bracket is that of a new variable. -/
def newName? (t : Expr) : Option Text :=
  match t.reverse with
  | last :: before :: _ =>
    let isNew := last.kind == .ident && !isBuiltin last.text
    let isTyped := before.is "]" || before.is ")" ||
      (before.kind == .ident && !before.is "delete" && !before.is "new")
    if isNew && isTyped then some last.text else none
  | _ => none

/-- The local variables that an expression statement declares. -/
def declaredIn (e : Expr) : List Text :=
  match e.assignment? with
  | some a => if a.op == "=" then (a.target.stripParens.topParts ",").filterMap newName? else []
  | none => (newName? e).toList

namespace Part

/-- The local variables that a part of a body declares. -/
def declares (p : Part) : List Text := if p.role = .statement then declaredIn p.value else []

/-- The local variables that lowering takes a part of a body to declare. -/
def notes (p : Part) : List Text :=
  match p.role with
  | .statement | .result => (targetsOf p.value).filterMap declaredBy?
  | .condition | .event | .reason => []

end Part

/-- The local variables that are visible behind a statement and were not in front of it. -/
def newLocals : Stmt → List Text
  | .expr _ value => declaredIn value
  | _ => []

/-! ### Visible locals -/

/-- An expression of a body, with the local variables that are visible there. -/
structure Site where
  part : Part
  visible : List Text
deriving DecidableEq, Repr

mutual

/-- The expressions of a statement in front of which the locals `names` are visible. -/
def sitesOf (names : List Text) : Stmt → List Site
  | .block _ body => sitesOfAll names body
  | .ifElse line cond yes no =>
    ⟨⟨.condition, line, cond⟩, names⟩ :: (sitesOf names yes ++ sitesOf names no)
  | .whileLoop line cond body =>
    (partOf .condition line cond).map (⟨·, names⟩) ++ sitesOf names body
  | .doLoop line cond body => (partOf .condition line cond).map (⟨·, names⟩) ++ sitesOf names body
  | .forLoop line init cond post body =>
    let inside := declaredIn init ++ names
    (partOf .statement init.line init).map (⟨·, names⟩) ++
      ((partOf .condition line cond).map (⟨·, inside⟩) ++
        (sitesOf inside body ++ (partOf .statement line post).map (⟨·, inside⟩)))
  | s => (partsOf s).map (⟨·, names⟩)

/-- The expressions of some statements in front of which the locals `names` are visible. -/
def sitesOfAll (names : List Text) : List Stmt → List Site
  | [] => []
  | s :: rest => sitesOf names s ++ sitesOfAll (newLocals s ++ names) rest

end

mutual

lemma map_part_sitesOf : ∀ (s : Stmt) (names : List Text), (sitesOf names s).map Site.part =
    partsOf s
  | .block _ body, names => by
    rw [sitesOf, partsOf]
    exact map_part_sitesOfAll body names
  | .ifElse _ _ yes no, names => by
    simp [sitesOf, partsOf, map_part_sitesOf yes, map_part_sitesOf no]
  | .whileLoop _ _ body, names => by
    simp [sitesOf, partsOf, map_part_sitesOf body, Function.comp_def]
  | .doLoop _ _ body, names => by
    simp [sitesOf, partsOf, map_part_sitesOf body, Function.comp_def]
  | .forLoop _ _ _ _ body, names => by
    simp [sitesOf, partsOf, map_part_sitesOf body, Function.comp_def]
  | .empty, _ | .placeholder _, _ | .breakLoop _, _ | .continueLoop _, _ | .expr .., _ | .emit .., _
  | .returnValue .., _ | .revert .., _ | .require .., _ => by
    simp [sitesOf, Function.comp_def]

lemma map_part_sitesOfAll : ∀ (body : List Stmt) (names : List Text),
    (sitesOfAll names body).map Site.part = partsOfAll body
  | [], _ => rfl
  | s :: rest, names => by
    simp [sitesOfAll, partsOfAll, map_part_sitesOf s, map_part_sitesOfAll rest]

end

/-! ### What has been declared before -/

/-- The local variables that are declared at some sites. -/
def declaredAt (sites : List Site) : List Text := sites.flatMap (·.part.declares)

/-- Whatever is visible at a site is one of `names` or is declared at a site in front of it. -/
def Covered : List Text → List Site → Prop
  | _, [] => True
  | names, site :: rest => site.visible ⊆ names ∧ Covered (site.part.declares ++ names) rest

namespace Covered

variable {names all : List Text} {sites first second : List Site}

lemma mono (hnames : names ⊆ all) (h : Covered names sites) : Covered all sites := by
  induction sites generalizing names all with
  | nil => trivial
  | cons site rest ih =>
    have hrest : site.part.declares ++ names ⊆ site.part.declares ++ all :=
      List.append_subset.mpr ⟨List.subset_append_left _ _, List.subset_append_of_subset_right _
        hnames⟩
    exact ⟨List.Subset.trans h.1 hnames, ih hrest h.2⟩

lemma append (h : Covered names first) (h' : Covered (declaredAt first ++ names) second) :
    Covered names (first ++ second) := by
  induction first generalizing names with
  | nil => exact h'
  | cons site rest ih =>
    refine ⟨h.1, ih h.2 (h'.mono fun x hx => ?_)⟩
    simp only [declaredAt, List.flatMap_cons, List.mem_append] at hx ⊢
    grind

/-- Sites at which the same names are visible. -/
lemma map_part (hnames : names ⊆ all) (parts : List Part) :
    Covered all (parts.map (⟨·, names⟩)) := by
  induction parts generalizing all with
  | nil => trivial
  | cons p parts ih => exact ⟨hnames, ih (List.subset_append_of_subset_right _ hnames)⟩

lemma declared_before {site : Site} (h : Covered names (first ++ site :: second)) {x : Text}
    (hx : x ∈ site.visible) :
    x ∈ names ∨ ∃ e ∈ first, x ∈ e.part.declares := by
  induction first generalizing names with
  | nil => exact .inl (h.1 hx)
  | cons e first ih =>
    have hrest := ih h.2
    simp only [List.mem_append, List.mem_cons, exists_eq_or_imp] at hrest ⊢
    grind

end Covered

/-- An expression statement that is not missing declares its names. -/
lemma declaredIn_subset_declaredAt (line : Nat) (value : Expr) (names : List Text) :
    declaredIn value ⊆ declaredAt ((partOf .statement line value).map (⟨·, names⟩)) := by
  cases value with
  | nil => exact List.nil_subset _
  | cons t rest => exact List.subset_append_left _ _

lemma newLocals_subset_declaredAt (s : Stmt) (names : List Text) :
    newLocals s ⊆ declaredAt (sitesOf names s) := by
  cases s with
  | expr line value => exact declaredIn_subset_declaredAt line value names
  | _ => exact List.nil_subset _

mutual

/-- What is visible in a statement is visible in front of it, or has been declared in it. -/
lemma covered_sitesOf : ∀ (s : Stmt) (names all : List Text), names ⊆ all →
    Covered all (sitesOf names s)
  | .block _ body, names, all, h => covered_sitesOfAll body names all h
  | .ifElse _ _ yes no, names, all, h => by
    have hyes : names ⊆ [] ++ all := h
    exact ⟨h, (covered_sitesOf yes names _ hyes).append
      (covered_sitesOf no names _ (List.subset_append_of_subset_right _ hyes))⟩
  | .whileLoop _ _ body, names, all, h =>
    (Covered.map_part h _).append (covered_sitesOf body names _
      (List.subset_append_of_subset_right _ h))
  | .doLoop _ _ body, names, all, h =>
    (Covered.map_part h _).append (covered_sitesOf body names _
      (List.subset_append_of_subset_right _ h))
  | .forLoop line init cond post body, names, all, h => by
    -- behind the first part of the head its names are known
    have hinside : declaredIn init ++ names ⊆
        declaredAt ((partOf .statement init.line init).map (⟨·, names⟩)) ++ all :=
      List.append_subset.mpr ⟨List.subset_append_of_subset_left _
        (declaredIn_subset_declaredAt _ _ _), List.subset_append_of_subset_right _ h⟩
    have hcond := List.subset_append_of_subset_right
      (declaredAt ((partOf .condition line cond).map (⟨·, declaredIn init ++ names⟩))) hinside
    refine (Covered.map_part h _).append ((Covered.map_part hinside _).append
      ((covered_sitesOf body _ _ hcond).append (Covered.map_part ?_ _)))
    exact List.subset_append_of_subset_right _ hcond
  | .empty, _, _, h | .placeholder _, _, _, h | .breakLoop _, _, _, h | .continueLoop _, _, _,
      h | .expr .., _, _, h
  | .emit .., _, _, h | .returnValue .., _, _, h | .revert .., _, _, h | .require .., _, _, h =>
    Covered.map_part h _

lemma covered_sitesOfAll : ∀ (body : List Stmt) (names all : List Text), names ⊆ all →
    Covered all (sitesOfAll names body)
  | [], _, _, _ => trivial
  | s :: rest, names, all, h => by
    refine (covered_sitesOf s names all h).append (covered_sitesOfAll rest _ _ ?_)
    exact List.append_subset.mpr ⟨List.subset_append_of_subset_left _
      (newLocals_subset_declaredAt s names), List.subset_append_of_subset_right _ h⟩

end

/-! ### What lowering notes -/

lemma note_fields (s : Scope) (t : Expr) : (s.note t).state = s.state ∧
    ∀ x, x ∈ (s.note t).locals ↔ x ∈ s.locals ∨ declaredBy? t = some x := by
  rw [Scope.note]
  cases declaredBy? t with
  | none => simp
  | some name => simp [Scope.declare, or_comm, eq_comm]

lemma foldl_note_fields (targets : List Expr) (s : Scope) :
    (targets.foldl Scope.note s).state = s.state ∧
    ∀ x, x ∈ (targets.foldl Scope.note s).locals ↔ x ∈ s.locals ∨ x ∈ targets.filterMap
      declaredBy? := by
  induction targets generalizing s with
  | nil => simp
  | cons t targets ih =>
    obtain ⟨hstate, hlocals⟩ := ih (s.note t)
    obtain ⟨hfirst, hnoted⟩ := note_fields s t
    refine ⟨hstate.trans hfirst, fun x => ?_⟩
    rw [List.foldl_cons, hlocals, hnoted, or_assoc]
    simp [List.mem_filterMap]

/-- A part adds to the locals what it notes. -/
lemma Part.scopeAfter_fields (p : Part) (s : Scope) : (p.scopeAfter s).state = s.state ∧
    ∀ x, x ∈ (p.scopeAfter s).locals ↔ x ∈ s.locals ∨ x ∈ p.notes := by
  obtain ⟨role, line, value⟩ := p
  have hnoted := foldl_note_fields (targetsOf value) s
  rw [← (fields_instrOf s value line).2.2] at hnoted
  cases role with
  | statement | result => exact hnoted
  | condition | event | reason => simp [Part.scopeAfter, Part.notes]

/-- Behind some parts the locals are those in front of them and what the parts note. -/
lemma Logs.scope_fields {s s' : Scope} {log : List (Part × Option Instr)} (h : Logs s log s') :
    s'.state = s.state ∧ ∀ x, x ∈ s'.locals ↔ x ∈ s.locals ∨ ∃ e ∈ log, x ∈ e.1.notes := by
  induction h with
  | nil => simp
  | @cons s s' rest p v _ ih =>
    obtain ⟨hstate, hlocals⟩ := p.scopeAfter_fields s
    refine ⟨ih.1.trans hstate, fun x => ?_⟩
    simp only [ih.2, hlocals, List.mem_cons, exists_eq_or_imp, or_assoc]

/-- The log of a body says what was made at each of its sites. -/
lemma exists_built {sites : List Site} {log : List (Part × Option Instr)}
    (h : log.map Prod.fst = sites.map Site.part) :
    ∃ built : List (Site × Option Instr), built.map Prod.fst = sites ∧
      built.map (fun e => (e.1.part, e.2)) = log := by
  induction sites generalizing log with
  | nil => exact ⟨[], rfl, (List.map_eq_nil_iff.mp h).symm⟩
  | cons site sites ih =>
    obtain ⟨⟨p, made⟩, log, rfl, rfl, hlog⟩ := List.map_eq_cons_iff.mp h
    obtain ⟨built, rfl, rfl⟩ := ih hlog
    exact ⟨(site, made) :: built, rfl, rfl⟩

/-- Lowering has come across a local variable `x` at some sites, or it is a parameter or a named
return value. -/
def Met (fn : Function) (sites : List Site) (x : Text) : Prop := x ∈ outerNames fn ∨ ∃ e ∈ sites,
    x ∈ e.part.notes

instance (fn : Function) (sites : List Site) (x : Text) : Decidable (Met fn sites x) :=
  inferInstanceAs (Decidable (_ ∨ _))

/-- A statement that overwrites a state variable is a state write exactly if lowering has not met a
local of that name in front of it. So state writes respect the scopes of locals exactly where the
locals met and the visible ones agree on the variable. Where lowering notes all names that are
declared, a state write is never one to a visible local. -/
theorem stateWrites_iff_of_scopes {u : SourceUnit} {c : Contract} {fn : Function}
    {state : List Text} {body : Stmt}
    {f : LoweredFunction} (h : lowerMember u c fn state body = .ok f) :
    ∃ built : List (Site × Option Instr), built.map Prod.fst = sitesOf (outerNames fn) body ∧
      (f.instrs.map Prod.snd).Perm (built.filterMap Prod.snd) ∧
      ∀ before site made behind, built = before ++ (site, made) :: behind →
        site.part.role = .statement →
        ∃ i, made = some i ∧ i.event = exprEvent site.part.value site.part.line ∧
          ∀ x ∈ state, isBuiltin x = false → Overwrites x site.part.value →
            (x ∈ i.stateWrites ↔ ¬ Met fn (before.map Prod.fst) x) ∧
            ((x ∈ i.stateWrites ↔ x ∉ site.visible) ↔ (Met fn (before.map Prod.fst) x ↔
              x ∈ site.visible)) ∧
            ((∀ e ∈ before, e.1.part.declares ⊆ e.1.part.notes) → x ∈ i.stateWrites →
              x ∉ site.visible) := by
  obtain ⟨log, s, hparts, hlogs, hperm⟩ := lowerMember_logged h
  obtain ⟨built, hsites, rfl⟩ :=
    exists_built (hparts.trans (map_part_sitesOf body (outerNames fn)).symm)
  refine ⟨built, hsites, by simpa [List.filterMap_map, Function.comp_def] using hperm, ?_⟩
  rintro before site made behind rfl hrole
  rw [List.map_append, List.map_cons] at hlogs hsites
  obtain ⟨s', hbefore, hrest⟩ := hlogs.of_append
  obtain ⟨v, hmade, -⟩ := hrest.of_cons
  rw [Part.instr?, hrole] at hmade
  refine ⟨_, hmade, event_instrOf s' site.part.value site.part.line, fun x hx hbuiltin hover => ?_⟩
  obtain ⟨hstate, hlocals⟩ := hbefore.scope_fields
  have hmet : x ∈ s'.locals ↔ Met fn (before.map Prod.fst) x := by
    simp only [Met, hlocals, List.mem_map, exists_exists_and_eq_and]
  have hwrites : x ∈ (instrOf s' site.part.value site.part.line).1.stateWrites ↔
    ¬ Met fn (before.map Prod.fst) x := by
    rw [mem_stateWrites_instrOf_iff hover hbuiltin, Scope.isState, hstate, ← hmet]
    simp [hx]
  refine ⟨hwrites, by rw [hwrites, not_iff_not], fun hnotes hwrite hvisible => hwrites.mp hwrite ?_⟩
  have hcovered := covered_sitesOf body (outerNames fn) _ (List.Subset.refl _)
  rw [← hsites] at hcovered
  refine (hcovered.declared_before hvisible).imp_right ?_
  rintro ⟨e, he, hdeclares⟩
  obtain ⟨entry, hentry, rfl⟩ := List.mem_map.mp he
  exact ⟨entry.1, he, hnotes entry hentry hdeclares⟩

/-! ### Two bodies -/

/-- A function with the parameter `i` and the given body. -/
def indexedFunction (body : Stmt) : Function :=
  { name := "f", kind := .function, visibility := "public", mutability := [], modifiers := []
    params := [⟨"i", "uint256"⟩], returns := [], line := 1, endLine := 1, body? := some body }

/-- Lowers a body in a function with the parameter `i`, in which the state variable `x` is
visible. -/
def lowerIndexed (body : Stmt) : Except LowerError LoweredFunction :=
  lowerMember ⟨"a.sol", [], [], 0, [], []⟩ ⟨"A", "contract", false, [], 1, [], [], []⟩
    (indexedFunction body) ["x"] body

/-- The declaration `uint256 x = 1`. -/
def declaringX : Expr := [⟨.ident, "uint256", 1⟩, ⟨.ident, "x", 1⟩, ⟨.punct, "=", 1⟩,
    ⟨.number, "1", 1⟩]

/-- The assignment `x = i`. -/
def assigningX : Expr := [⟨.ident, "x", 1⟩, ⟨.punct, "=", 1⟩, ⟨.ident, "i", 1⟩]

/-- The increment `x++`. -/
def steppingX : Expr := [⟨.ident, "x", 1⟩, ⟨.punct, "++", 1⟩]

lemma overwrites_assigningX : Overwrites "x" assigningX := .assignment (.name rfl 1) (by decide) 1 _

lemma overwrites_steppingX : Overwrites "x" steppingX := .stepBehind (.name rfl 1) (by decide)

/-- The body `x = i; { uint256 x = 1; x++; }`. -/
def innerLocal :
    Stmt := .block 1 [.expr 1 assigningX, .block 1 [.expr 1 declaringX, .expr 1 steppingX]]

/-- In `x = i; { uint256 x = 1; x++; }` the assignment writes state, and the increment does not. -/
theorem stateWrites_around_innerLocal :
    ∃ f i j, lowerIndexed innerLocal = .ok f ∧ i ∈ f.instrs.map Prod.snd ∧
      j ∈ f.instrs.map Prod.snd ∧ i.event = exprEvent assigningX 1 ∧ ("x" : Text) ∈ i.stateWrites ∧
      j.event = exprEvent steppingX 1 ∧ ("x" : Text) ∉ j.stateWrites := by
  obtain ⟨f, hf, -⟩ : ∃ f, lowerIndexed innerLocal = .ok f ∧ True := by decide +kernel
  obtain ⟨built, hsites, hperm, hsound⟩ := stateWrites_iff_of_scopes hf
  have hthree : sitesOf (outerNames (indexedFunction innerLocal)) innerLocal =
      [⟨⟨.statement, 1, assigningX⟩, ["i"]⟩, ⟨⟨.statement, 1, declaringX⟩, ["i"]⟩,
        ⟨⟨.statement, 1, steppingX⟩, ["x", "i"]⟩] := by decide +kernel
  rw [hthree] at hsites
  obtain ⟨⟨_, first⟩, _, rfl, rfl, hbehind⟩ := List.map_eq_cons_iff.mp hsites
  obtain ⟨⟨_, second⟩, _, rfl, rfl, hlast⟩ := List.map_eq_cons_iff.mp hbehind
  obtain ⟨⟨_, third⟩, _, rfl, rfl, -⟩ := List.map_eq_cons_iff.mp hlast
  obtain ⟨i, rfl, hi, hassigns⟩ := hsound [] _ _ _ rfl rfl
  obtain ⟨j, rfl, hj, hsteps⟩ := hsound [_, _] _ _ _ rfl rfl
  have hwrites : ("x" : Text) ∈ i.stateWrites :=
    (hassigns "x" (by decide) (by decide) overwrites_assigningX).1.mpr
      (by decide +kernel : ¬ Met (indexedFunction innerLocal) [] "x")
  have hkeeps : ("x" : Text) ∉ j.stateWrites := fun hmem =>
    (hsteps "x" (by decide) (by decide) overwrites_steppingX).1.mp hmem
      (by decide +kernel : Met (indexedFunction innerLocal)
        [⟨⟨.statement, 1, assigningX⟩, ["i"]⟩, ⟨⟨.statement, 1, declaringX⟩, ["i"]⟩] "x")
  exact ⟨f, i, j, hf, hperm.mem_iff.mpr (by simp), hperm.mem_iff.mpr (by simp), hi,
    hwrites, hj, hkeeps⟩

/-- The body `{ uint256 x = 1; } x = i;`. -/
def outlivedLocal : Stmt := .block 1 [.block 1 [.expr 1 declaringX], .expr 1 assigningX]

/-- In `{ uint256 x = 1; } x = i;` no local `x` is visible at the assignment, and still no
instruction writes the state variable `x`. -/
theorem not_stateWrites_behind_outlivedLocal :
    ∃ f, lowerIndexed outlivedLocal = .ok f ∧
      (sitesOf (outerNames (indexedFunction outlivedLocal)) outlivedLocal).getLast? =
        some ⟨⟨.statement, 1, assigningX⟩, ["i"]⟩ ∧
      Overwrites "x" assigningX ∧ isBuiltin "x" = false ∧
      ∀ e ∈ f.instrs, ("x" : Text) ∉ e.2.stateWrites := by
  obtain ⟨f, hf, hwrites⟩ : ∃ f, lowerIndexed outlivedLocal = .ok f ∧
      ∀ e ∈ f.instrs, ("x" : Text) ∉ e.2.stateWrites := by decide +kernel
  exact ⟨f, hf, by decide +kernel, overwrites_assigningX, by decide, hwrites⟩

end ContractAudit.Flow
