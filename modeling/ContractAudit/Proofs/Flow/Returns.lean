import ContractAudit.Proofs.Flow.Scoping

/-!
State writes in returns.

A return can write state on its way out, as in `return x++`. Lowering makes an instruction of the
returned expression, which notes the write, and then drops it unless the expression calls something.

* `LoweredFunction.Placed.exists_scope`: the scope in which a part of a body is lowered.
* `LoweredFunction.Placed.stmts_of_result`: the instruction of a return, if it is kept, is the last
  one of its block.
* `writes_of_return_iff`: a return that overwrites a state variable is noted as a write exactly if
  it calls something and no local of that name has been met. So of the returns that write state
  those are kept that call something.
-/

namespace ContractAudit.Flow

open Source (Expr Token Stmt Contract Function SourceUnit isBuiltin)

namespace LoweredFunction.Placed

variable {f : LoweredFunction} {before behind : List Landing} {l : Landing}

/-- A part is lowered in the scope that the parts in front of it have left. -/
lemma exists_scope (h : f.Placed (before ++ l :: behind)) :
    ∃ s v, s.state = f.stateVars ∧
      (∀ x, x ∈ s.locals ↔ x ∈ outerNames f.function ∨ ∃ l' ∈ before, x ∈ l'.part.notes) ∧
      l.made = l.part.instr? s v := by
  obtain ⟨s', hlogs⟩ := h.logs
  rw [List.map_append, List.map_cons] at hlogs
  obtain ⟨s, hbefore, hrest⟩ := hlogs.of_append
  obtain ⟨v, hmade, -⟩ := hrest.of_cons
  obtain ⟨hstate, hlocals⟩ := hbefore.scope_fields
  exact ⟨s, v, hstate, fun x => by simp [hlocals], hmade⟩

/-- Behind a return nothing goes to its block. -/
lemma stmts_of_result (h : f.Placed (before ++ l :: behind)) (hrole : l.part.role = .result) :
    ∃ b, f.graph.block? l.block = some b ∧ b.term = .done l.part.value.readNames ∧
      b.stmts = landedAt l.block before ++ l.made.toList := by
  obtain ⟨b, hb, hterm⟩ := h.ended l (by simp) hrole
  obtain ⟨hmem, hid⟩ := Graph.block?_eq_some_iff.mp hb
  obtain ⟨n, hn, hstmts⟩ := h.stmts b hmem
  obtain rfl : l.block = n := Int.natCast_inj.mp (hid.symm.trans hn)
  have hrest : landedAt l.block behind = [] := by
    obtain ⟨-, hapart, -⟩ := List.pairwise_append.mp h.apart
    refine List.filterMap_eq_nil_iff.mpr fun l' hl' => if_neg ?_
    exact (List.pairwise_cons.mp hapart).1 l' hl' hrole
  refine ⟨b, hb, hterm, ?_⟩
  rw [hstmts, landedAt_append, landedAt_cons, if_pos rfl, hrest, List.append_nil]

end LoweredFunction.Placed

/-- The return at site number `k` of a body leaves an instruction at the end of the block that
returns exactly if its expression calls something. So a state variable that the return overwrites is
noted as written exactly if the expression calls something and lowering has met no local of that
name. Where the locals met and the visible ones agree on the variable and none is visible, it hangs
on the calls alone. -/
theorem writes_of_return_iff {u : SourceUnit} {c : Contract} {fn : Function} {state : List Text}
    {body : Stmt} {f : LoweredFunction} (h : lowerMember u c fn state body = .ok f) :
    ∃ ls : List Landing, ls.map Landing.part = (sitesOf (outerNames fn) body).map Site.part ∧
      (f.instrs.map Prod.snd).Perm (ls.filterMap (·.made)) ∧
      ∀ (k : Nat) (site : Site) (l : Landing), (sitesOf (outerNames fn) body)[k]? = some site →
        ls[k]? = some l → site.part.role = .result →
        (l.made.isSome = true ↔ callsSomething site.part.value = true) ∧
        (∃ b, f.graph.block? l.block = some b ∧ b.term = .done site.part.value.readNames ∧
          ∀ i ∈ l.made, b.stmts.getLast? = some i ∧
            i.event = exprEvent site.part.value site.part.line) ∧
        ∀ x ∈ state, isBuiltin x = false → Overwrites x site.part.value →
          ((∃ i ∈ l.made, x ∈ i.stateWrites) ↔
            callsSomething site.part.value = true ∧
              ¬ Met fn ((sitesOf (outerNames fn) body).take k) x) ∧
          ((Met fn ((sitesOf (outerNames fn) body).take k) x ↔ x ∈ site.visible) →
            x ∉ site.visible →
            ((∃ i ∈ l.made, x ∈ i.stateWrites) ↔ callsSomething site.part.value = true)) := by
  obtain ⟨-, -, hfunction, hstate⟩ := origin_lowerMember h
  obtain ⟨ls, hparts, hplaced⟩ := lowerMember_partsOf h
  have hsites := hparts.trans (map_part_sitesOf body (outerNames fn)).symm
  refine ⟨ls, hsites, hplaced.instrs, fun k site l hsite hl hrole => ?_⟩
  have hpart : l.part = site.part := by simpa [hsite, hl] using congrArg (·[k]?) hsites
  have hcut : f.Placed (ls.take k ++ l :: ls.drop (k + 1)) := by
    obtain ⟨hlt, rfl⟩ := List.getElem?_eq_some_iff.mp hl
    rwa [List.getElem_cons_drop, List.take_append_drop]
  rw [← hpart] at hrole ⊢
  obtain ⟨s, v, hs, hlocals, hmade⟩ := hcut.exists_scope
  rw [Part.instr?_result hrole] at hmade
  obtain ⟨b, hb, hterm, hstmts⟩ := hcut.stmts_of_result hrole
  refine ⟨by simp [hmade], ⟨b, hb, hterm, fun i hi => ?_⟩, fun x hx hbuiltin hover => ?_⟩
  · refine ⟨by simp [hstmts, Option.mem_def.mp hi], ?_⟩
    obtain ⟨-, rfl⟩ : callsSomething l.part.value = true ∧
      (instrOf s l.part.value l.part.line).1 = i := by
      simpa [hmade] using hi
    exact event_instrOf s _ _
  · have hbefore : (ls.take k).map Landing.part =
      ((sitesOf (outerNames fn) body).take k).map Site.part := by
      rw [List.map_take, List.map_take, hsites]
    have hmet : x ∈ s.locals ↔ Met fn ((sitesOf (outerNames fn) body).take k) x := by
      have hnoted : (∃ p ∈ (ls.take k).map Landing.part, x ∈ p.notes) ↔
          ∃ p ∈ ((sitesOf (outerNames fn) body).take k).map Site.part, x ∈ p.notes := by
            rw [hbefore]
      simp only [List.mem_map, exists_exists_and_eq_and] at hnoted
      rw [hlocals, hfunction, hnoted, Met]
    have hwrites : x ∈ (instrOf s l.part.value l.part.line).1.stateWrites ↔
        ¬ Met fn ((sitesOf (outerNames fn) body).take k) x := by
      rw [mem_stateWrites_instrOf_iff hover hbuiltin, Scope.isState, hs, hstate, ← hmet]
      simp [hx]
    have hkept : (∃ i ∈ l.made, x ∈ i.stateWrites) ↔
        callsSomething l.part.value = true ∧ ¬ Met fn ((sitesOf (outerNames fn) body).take k)
          x := by
      rw [← hwrites]
      simp [hmade]
    refine ⟨hkept, fun hagree hvisible => hkept.trans ?_⟩
    rw [hagree]
    exact and_iff_left hvisible

/-- The assignment `x = g(i)`. -/
def assigningCallX : Expr :=
  [⟨.ident, "x", 1⟩, ⟨.punct, "=", 1⟩, ⟨.ident, "g", 1⟩, ⟨.punct, "(", 1⟩, ⟨.ident, "i", 1⟩,
    ⟨.punct, ")", 1⟩]

/-- The body `if (i) { x++; return x = g(i); }`. -/
def returnedCall : Stmt :=
  .ifElse 1 [⟨.ident, "i", 1⟩] (.block 1 [.expr 1 steppingX, .returnValue 1 assigningCallX]) .empty

/-- In `if (i) { x++; return x = g(i); }` the assignment is kept, at the end of the block that
returns. -/
theorem writes_of_returnedCall :
    ∃ f b i, lowerIndexed returnedCall = .ok f ∧ b ∈ f.graph.blocks ∧
      b.term = .done assigningCallX.readNames ∧
      b.stmts.getLast? = some i ∧ i.event = exprEvent assigningCallX 1 ∧
        ("x" : Text) ∈ i.stateWrites := by
  obtain ⟨f, hf, -⟩ : ∃ f, lowerIndexed returnedCall = .ok f ∧ True := by decide +kernel
  obtain ⟨ls, hparts, -, hreturns⟩ := writes_of_return_iff hf
  have hsite : (sitesOf (outerNames (indexedFunction returnedCall)) returnedCall)[2]? =
      some ⟨⟨.result, 1, assigningCallX⟩, ["i"]⟩ := by decide +kernel
  have hpart := congrArg (·[2]?) hparts
  simp only [List.getElem?_map, hsite, Option.map_some, Option.map_eq_some_iff] at hpart
  obtain ⟨l, hl, -⟩ := hpart
  obtain ⟨-, ⟨b, hb, hterm, hlast⟩, hwrites⟩ := hreturns 2 _ l hsite hl rfl
  have hover : Overwrites "x" assigningCallX := .assignment (.name rfl 1) (by decide) 1 _
  obtain ⟨i, hi, hwrite⟩ := (hwrites "x" (by decide) (by decide) hover).1.mpr
    ⟨by decide +kernel, by decide +kernel⟩
  exact ⟨f, b, i, hf, (Graph.block?_eq_some_iff.mp hb).1, hterm, (hlast i hi).1,
    (hlast i hi).2, hwrite⟩

/-- The body `return x++;`. -/
def returnedStep : Stmt := .block 1 [.returnValue 1 steppingX]

/-- In `return x++;` no local `x` is visible, and still no instruction writes the state variable
`x`. -/
theorem not_writes_of_returnedStep :
    ∃ f, lowerIndexed returnedStep = .ok f ∧
      sitesOf (outerNames (indexedFunction returnedStep))
        returnedStep = [⟨⟨.result, 1, steppingX⟩, ["i"]⟩] ∧
      Overwrites "x" steppingX ∧ isBuiltin "x" = false ∧ ∀ e ∈ f.instrs, ("x" : Text) ∉
        e.2.stateWrites := by
  obtain ⟨f, hf, hwrites⟩ : ∃ f, lowerIndexed returnedStep = .ok f ∧
      ∀ e ∈ f.instrs, ("x" : Text) ∉ e.2.stateWrites := by decide +kernel
  exact ⟨f, hf, by decide +kernel, overwrites_steppingX, by decide, hwrites⟩

end ContractAudit.Flow
