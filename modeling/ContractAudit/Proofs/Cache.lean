import Mathlib.Tactic.Lemma
import ContractAudit.Cache

/-!
The keys of a cache are unambiguous.

A key is the hash of the parts written one behind the other, each behind its length. The length can
be read back from its eight bytes (`valueOf_lengthBytes`), so that a text which begins with a part
determines the part and what follows it (`part_inj`). Hence the parts can be told from what is
hashed, and two lists of parts have the same key only if they are the same or two texts have the
same hash (`key_unambiguous`).
-/

namespace ContractAudit.Cache

/-- The number that some bytes write, the lowest first. -/
def valueOf : Text → Nat
  | [] => 0
  | b :: rest => b.toNat + 256 * valueOf rest

lemma length_lengthBytes (n : Nat) : (lengthBytes n).length = 8 := by
  rw [lengthBytes, List.length_map, List.length_range]

/-- The length of a text is read back from its eight bytes. -/
lemma valueOf_lengthBytes {n : Nat} (h : n < Nat.pow 2 63) : valueOf (lengthBytes n) = n := by
  have hn : n < 9223372036854775808 := h
  have hbytes : lengthBytes n = [UInt8.ofNat n, UInt8.ofNat (n / 256), UInt8.ofNat (n / 65536),
      UInt8.ofNat (n / 16777216), UInt8.ofNat (n / 4294967296), UInt8.ofNat (n / 1099511627776),
      UInt8.ofNat (n / 281474976710656), UInt8.ofNat (n / 72057594037927936)] := by
    simp [lengthBytes, List.range_succ]
  simp only [hbytes, valueOf, UInt8.toNat_ofNat']
  omega

/-- A text that begins with a part behind its length determines the part and what follows it. -/
lemma part_inj {p q rest rest' : Text} (hp : p.length < Nat.pow 2 63) (hq : q.length < Nat.pow 2 63)
    (h : lengthBytes p.length ++ (p ++ rest) = lengthBytes q.length ++ (q ++ rest')) :
    p = q ∧ rest = rest' := by
  obtain ⟨hlength, hbehind⟩ := List.append_inj h (by rw [length_lengthBytes, length_lengthBytes])
  have hsame : p.length = q.length := by
    rw [← valueOf_lengthBytes hp, hlength, valueOf_lengthBytes hq]
  exact List.append_inj hbehind hsame

lemma preimage_cons (p : Text) (parts : List Text) :
    preimage (p :: parts) = lengthBytes p.length ++ (p ++ preimage parts) := by
  rw [preimage, List.flatMap_cons, List.append_assoc]
  rfl

lemma preimage_cons_ne_nil (p : Text) (parts : List Text) : preimage (p :: parts) ≠ [] := by
  intro hnil
  have hlength := congrArg List.length hnil
  rw [preimage_cons, List.length_append, length_lengthBytes, List.length_nil] at hlength
  omega

lemma preimage_inj {parts parts' : List Text} (h : ∀ p ∈ parts, p.length < Nat.pow 2 63)
    (h' : ∀ p ∈ parts', p.length < Nat.pow 2 63) (heq : preimage parts = preimage parts') :
    parts = parts' := by
  induction parts generalizing parts' with
  | nil =>
    cases parts' with
    | nil => rfl
    | cons q parts' => exact absurd heq.symm (preimage_cons_ne_nil q parts')
  | cons p parts ih =>
    cases parts' with
    | nil => exact absurd heq (preimage_cons_ne_nil p parts)
    | cons q parts' =>
      rw [preimage_cons, preimage_cons] at heq
      obtain ⟨rfl, hrest⟩ :=
        part_inj (h p (List.mem_cons_self ..)) (h' q (List.mem_cons_self ..)) heq
      rw [ih (fun r hr => h r (List.mem_cons_of_mem _ hr))
        (fun r hr => h' r (List.mem_cons_of_mem _ hr)) hrest]

/-- Two texts with the same hash. -/
structure Collision (a b : Text) : Prop where
  differ : a ≠ b
  sameHash : a.sha256 = b.sha256

/-- **Keys are unambiguous**: what is hashed for two lists of parts is the same only if the lists
are the same, so that different lists have the same key only where the hash has a collision. -/
theorem key_unambiguous {parts parts' : List Text} (h : ∀ p ∈ parts, p.length < Nat.pow 2 63)
    (h' : ∀ p ∈ parts', p.length < Nat.pow 2 63) :
    (preimage parts = preimage parts' ↔ parts = parts') ∧
      (key parts = key parts' ↔ parts = parts' ∨ Collision (preimage parts) (preimage parts')) := by
  have hinj : preimage parts = preimage parts' ↔ parts = parts' :=
    ⟨preimage_inj h h', congrArg preimage⟩
  refine ⟨hinj, fun hkey => ?_, ?_⟩
  · by_cases hsame : preimage parts = preimage parts'
    · exact .inl (hinj.mp hsame)
    · exact .inr ⟨hsame, hkey⟩
  · rintro (rfl | hcollision)
    · rfl
    · exact hcollision.sameHash

/-- Two parts. -/
def sampleParts : List Text := ["ab", "c"]

/-- The same bytes cut at another place, with an empty part behind them. -/
def recutParts : List Text := ["a", "bc", ""]

/-- The two lists are hashed differently. -/
theorem key_unambiguous_recut :
    (∀ p ∈ sampleParts, p.length < Nat.pow 2 63) ∧ (∀ p ∈ recutParts, p.length < Nat.pow 2 63) ∧
      preimage sampleParts ≠ preimage recutParts ∧
      (key sampleParts = key recutParts →
        Collision (preimage sampleParts) (preimage recutParts)) := by
  have hsample : ∀ p ∈ sampleParts, p.length < Nat.pow 2 63 := by decide +kernel
  have hrecut : ∀ p ∈ recutParts, p.length < Nat.pow 2 63 := by decide +kernel
  have hdiffer : sampleParts ≠ recutParts := by decide +kernel
  obtain ⟨hinj, hkey⟩ := key_unambiguous hsample hrecut
  exact ⟨hsample, hrecut, fun h => hdiffer (hinj.mp h), fun h => (hkey.mp h).resolve_left hdiffer⟩

end ContractAudit.Cache
