import Mathlib.Data.List.Nodup

/-!
Lists of what another list mentions.

A list is gone through, and what it mentions is noted, each thing once and in the order of its first
mention.

* `Earlier`: one thing is mentioned earlier than another.
* `FirstMentions`: the list of what is mentioned. It only grows at its end (`FirstMentions.add`),
  has no repeats (`FirstMentions.nodup`) and is the only one (`FirstMentions.unique`).
-/

namespace ContractAudit

variable {α : Type}

/-- `x` is mentioned earlier than `y`: some beginning of the list has `x` and not yet `y`. -/
def Earlier (xs : List α) (x y : α) : Prop := ∃ front, front <+: xs ∧ x ∈ front ∧ y ∉ front

lemma Earlier.append {xs : List α} {x y : α} (h : Earlier xs x y) (more : List α) :
    Earlier (xs ++ more) x y := by
  obtain ⟨front, hfront, hx, hy⟩ := h
  exact ⟨front, hfront.trans (List.prefix_append xs more), hx, hy⟩

lemma not_earlier_self (xs : List α) (x : α) : ¬Earlier xs x x := fun ⟨_, _, hx, hnot⟩ => hnot hx

/-- Of two beginnings one is a beginning of the other, so that two things are not each earlier than
the other. -/
lemma Earlier.asymm {xs : List α} {x y : α} (h : Earlier xs x y) : ¬Earlier xs y x := by
  obtain ⟨front, hfront, hx, hy⟩ := h
  rintro ⟨front', hfront', hy', hx'⟩
  rcases List.prefix_or_prefix_of_prefix hfront hfront' with hle | hle
  · exact hx' (hle.subset hx)
  · exact hy (hle.subset hy')

/-- `firsts` holds what `xs` mentions, each thing once, in the order in which it is mentioned
first. -/
structure FirstMentions (xs firsts : List α) : Prop where
  mem_iff : ∀ x, x ∈ firsts ↔ x ∈ xs
  inOrder : firsts.Pairwise (Earlier xs)

namespace FirstMentions

lemma nil : FirstMentions ([] : List α) [] := ⟨fun _ => Iff.rfl, .nil⟩

/-- One more thing is put at the end, unless it was mentioned before. -/
lemma add {xs firsts : List α} (h : FirstMentions xs firsts) {x : α} {p : Prop} [Decidable p]
    (hp : p ↔ x ∈ firsts) : FirstMentions (xs ++ [x]) (if p then firsts else firsts ++ [x]) := by
  have hbefore : firsts.Pairwise (Earlier (xs ++ [x])) := h.inOrder.imp fun hxy => hxy.append [x]
  split_ifs with hx
  · refine ⟨fun y => ?_, hbefore⟩
    have hxs : x ∈ xs := (h.mem_iff x).mp (hp.mp hx)
    rw [h.mem_iff, List.mem_append, List.mem_singleton]
    exact ⟨.inl, fun hy => hy.elim id fun hyx => hyx ▸ hxs⟩
  · have hxs : x ∉ xs := fun hxs => hx (hp.mpr ((h.mem_iff x).mpr hxs))
    refine ⟨fun y => ?_, List.pairwise_append.mpr ⟨hbefore, List.pairwise_singleton _ x, ?_⟩⟩
    · rw [List.mem_append, List.mem_append, h.mem_iff]
    · -- Everything noted so far is mentioned in `xs`, where `x` is not.
      intro y hy z hz
      obtain rfl := List.mem_singleton.mp hz
      exact ⟨xs, List.prefix_append xs [z], (h.mem_iff y).mp hy, hxs⟩

lemma nodup {xs firsts : List α} (h : FirstMentions xs firsts) : firsts.Nodup := by
  refine h.inOrder.imp fun {x y} hxy => ?_
  rintro rfl
  exact not_earlier_self xs x hxy

/-- There is only one list of first mentions. -/
lemma unique {xs firsts firsts' : List α} (h : FirstMentions xs firsts)
    (h' : FirstMentions xs firsts') :
    firsts = firsts' := by
  have hperm : firsts.Perm firsts' :=
    (List.perm_ext_iff_of_nodup h.nodup h'.nodup).mpr fun x =>
      (h.mem_iff x).trans (h'.mem_iff x).symm
  exact hperm.eq_of_pairwise (fun _ _ _ _ hxy hyx => absurd hyx hxy.asymm) h.inOrder h'.inOrder

/-- A list without repeats is the list of its first mentions. -/
lemma of_nodup {xs : List α} (h : xs.Nodup) : FirstMentions xs xs := by
  refine ⟨fun _ => Iff.rfl, List.pairwise_iff_getElem.mpr fun i j hi hj hij => ⟨xs.take (i + 1),
    ?_, ?_, ?_⟩⟩
  · exact List.take_prefix _ _
  · exact List.mem_take_iff_getElem.mpr ⟨i, by omega, rfl⟩
  · intro hmem
    obtain ⟨k, hk, heq⟩ := List.mem_take_iff_getElem.mp hmem
    have := h.getElem_inj_iff.mp heq
    omega

end FirstMentions

end ContractAudit
