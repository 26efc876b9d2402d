import Mathlib.Data.List.Perm.Basic
import Mathlib.Logic.Function.Iterate
import ContractAudit.Plan.Run

/-!
Passes that run at the same time.

* `Session.Alike`: sessions with the same contents, whatever the statistics and the order of
  completion.
* `advance`: one step of a pass in a group that runs in parallel. It looks at the ledger, runs the
  body, notes the time, and marks the pass as completed; other passes may have their steps in
  between. Steps of one pass behind each other come to what `runSingle` does (`iterate_advance`).
* `IndependentGroup`: no pass of a group reads what another one writes. Then steps of different
  passes can change places (`advance_unseen`, `advance_comm`).
* `Work`: a group under way. The order in which its passes have their turns makes no difference
  (`turns_perm`).
-/

namespace ContractAudit.Plan

variable {S A I : Type}

/-! ### Sessions with the same contents -/

/-- Whether two sessions have the same contents: they may differ in the statistics and in the order
of the ledger. -/
structure Session.Alike (s t : Session S A I) : Prop where
  root : s.root = t.root
  sources : s.sources = t.sources
  ir? : s.ir? = t.ir?
  artifacts : ∀ name, s.artifacts.get? name = t.artifacts.get? name
  completed : ∀ id, id ∈ s.completed ↔ id ∈ t.completed
  aborted : s.aborted = t.aborted

namespace Session

variable {s t u : Session S A I}

lemma Alike.refl (s : Session S A I) :
    s.Alike s := ⟨rfl, rfl, rfl, fun _ => rfl, fun _ => Iff.rfl, rfl⟩

lemma Alike.symm (h : s.Alike t) : t.Alike s :=
  ⟨h.root.symm, h.sources.symm, h.ir?.symm, fun name => (h.artifacts name).symm,
    fun id => (h.completed id).symm, h.aborted.symm⟩

lemma Alike.trans (h : s.Alike t) (h' : t.Alike u) : s.Alike u :=
  ⟨h.root.trans h'.root, h.sources.trans h'.sources, h.ir?.trans h'.ir?,
    fun name => (h.artifacts name).trans (h'.artifacts name),
    fun id => (h.completed id).trans (h'.completed id), h.aborted.trans h'.aborted⟩

lemma alike_skip (s : Session S A I) :
    s.skip.Alike s := ⟨rfl, rfl, rfl, fun _ => rfl, fun _ => .rfl, rfl⟩

lemma alike_spend (s : Session S A I) (phase : Text) (time : Int) : (s.spend phase time).Alike s :=
  ⟨rfl, rfl, rfl, fun _ => rfl, fun _ => .rfl, rfl⟩

/-- Marking a pass changes nothing but the ledger. -/
lemma alike_complete (s : Session S A I) (id : Text) :
    (s.complete id).Alike { s with completed := s.completed ++ [id] } := by
  refine ⟨?_, ?_, ?_, fun name => ?_, fun other => by simp, ?_⟩ <;> unfold complete <;>
    split <;> rfl

lemma Alike.complete (h : s.Alike t) (id : Text) : (s.complete id).Alike (t.complete id) := by
  refine (s.alike_complete id).trans (.trans ?_ (t.alike_complete id).symm)
  exact ⟨h.root, h.sources, h.ir?, h.artifacts, fun other => by simp [h.completed other], h.aborted⟩

lemma complete_comm (s : Session S A I) (a b : Text) :
    ((s.complete a).complete b).Alike ((s.complete b).complete a) := by
  have hmark : ∀ a b, ((s.complete a).complete b).Alike
      { s with completed := s.completed ++ [a, b] } := by
    intro a b
    refine ((s.complete a).alike_complete b).trans ?_
    have h := s.alike_complete a
    exact ⟨h.root, h.sources, h.ir?, h.artifacts, fun other => by simp [or_assoc], h.aborted⟩
  refine (hmark a b).trans (.trans ?_ (hmark b a).symm)
  exact ⟨rfl, rfl, rfl, fun _ => rfl, fun other => by simp [or_comm], rfl⟩

lemma Alike.hasIR (h : s.Alike t) : s.hasIR = t.hasIR := congrArg Option.isSome h.ir?

end Session

/-! ### Steps of a pass -/

/-- How far a pass of a group has come. -/
inductive Progress where
  | waiting
  /-- The pass has not completed before, and its body is next. -/
  | entered
  /-- The body has run, with the cause of its failure. -/
  | ran (cause : Option Failure)
  /-- The time of the body has been noted. -/
  | noted (cause : Option Failure)
  | finished (outcome : Option (PassRecord × Option Failure))

/-- Whether nothing is left to do. -/
def Progress.isFinished : Progress → Bool
  | finished _ => true
  | _ => false

/-- What became of a pass that is finished. -/
def Progress.outcome : Progress → Option (PassRecord × Option Failure)
  | finished outcome => outcome
  | _ => none

/-- The pass of the given name, or its record and failure if it cannot be run whatever the
session. -/
def lookUp (passes : PassTable S A I) (id : Text) : Except (PassRecord × Failure) (Pass S A I) :=
  match passes.get? id with
  | none =>
    let e : Failure := .fault .passNotFound id "no pass registered"
    .error (⟨id, id, 0, false, e.message⟩, e)
  | some p =>
    match p.requires.find? fun dep => !passes.has dep with
    | some dep =>
      let e : Failure := .fault .passNotFound dep ("required by " ++ id)
      .error (⟨id, p.name, 0, false, e.message⟩, e)
    | none => .ok p

/-- The next step of a pass, and the session behind it. The body is run only if the pass was
found. -/
def advance (passes : PassTable S A I) (id : Text) : Progress × Session S A I →
    Progress × Session S A I
  | (.waiting, s) =>
    if s.isCompleted id then (.finished none, s.skip)
    else
      match lookUp passes id with
      | .error (record, e) => (.finished (some (record, some e)), s)
      | .ok _ => (.entered, s)
  | (.entered, s) =>
    match lookUp passes id with
    | .error _ => (.entered, s)
    | .ok p => (.ran (p.run s).2, (p.run s).1)
  | (.ran cause, s) => (.noted cause, s.spend id 0)
  | (.noted cause, s) =>
    match lookUp passes id, cause with
    | .error _, _ => (.noted cause, s)
    | .ok p, none => (.finished (some (⟨id, p.name, 0, true, []⟩, none)), s.complete id)
    | .ok p, some cause =>
      let e : Failure := .inside id cause
      (.finished (some (⟨id, p.name, 0, false, e.message⟩, some e)), s)
  | (.finished outcome, s) => (.finished outcome, s)

variable {passes : PassTable S A I}

/-- Four steps of a pass, with nothing in between, run it. -/
lemma iterate_advance_four (id : Text) (s : Session S A I) :
    (advance passes id)^[4] (.waiting, s) =
      (.finished (runSingle passes id s).2, (runSingle passes id s).1) := by
  simp only [Function.iterate_succ, Function.comp_apply, Function.iterate_zero, id_eq]
  cases hdone : s.isCompleted id with
  | true => simp [advance, runSingle, hdone]
  | false => ?_
  cases hp : passes.get? id with
  | none => simp [advance, runSingle, lookUp, hdone, hp]
  | some p =>
    cases hmissing : p.requires.find? fun dep => !passes.has dep with
    | some dep => simp [advance, runSingle, lookUp, hdone, hp, hmissing]
    | none =>
      rcases hrun : p.run s with ⟨t, _ | cause⟩ <;>
        simp [advance, runSingle, lookUp, hdone, hp, hmissing, hrun]

/-- However many steps it takes to finish a pass, with nothing in between, they run it. -/
lemma iterate_advance {id : Text} {n : Nat} {s : Session S A I}
    (h : ((advance passes id)^[n] (.waiting, s)).1.isFinished = true) :
    (advance passes id)^[n] (.waiting, s) =
      (.finished (runSingle passes id s).2, (runSingle passes id s).1) := by
  have hstays : ∀ (k : Nat) (now : Progress × Session S A I), now.1.isFinished = true →
      (advance passes id)^[k] now = now := by
    rintro k ⟨_ | _ | _ | _ | outcome, t⟩ hfinished <;> try cases hfinished
    exact Function.iterate_fixed rfl k
  calc (advance passes id)^[n] (.waiting, s)
      = (advance passes id)^[4] ((advance passes id)^[n] (.waiting, s)) := (hstays 4 _ h).symm
    _ = (advance passes id)^[n] ((advance passes id)^[4] (.waiting, s)) := by
        rw [← Function.iterate_add_apply, Nat.add_comm, Function.iterate_add_apply]
    _ = (.finished (runSingle passes id s).2, (runSingle passes id s).1) := by
        rw [iterate_advance_four, hstays n _ rfl]

/-! ### Passes that do not get in each other's way -/

/-- Whether a pass sees the contents of a session only: neither the statistics nor the order in
which passes have completed make a difference to it. -/
def Pass.SeesContents (p : Pass S A I) : Prop :=
  ∀ s t : Session S A I, s.Alike t → (p.run s).2 = (p.run t).2 ∧ (p.run s).1.Alike (p.run t).1

/-- Whether a pass neither asks whether the pass `id` has completed nor changes it. -/
structure Pass.Disregards (p : Pass S A I) (id : Text) : Prop where
  unmarked : ∀ s : Session S A I, id ∈ (p.run s).1.completed ↔ id ∈ s.completed
  unasked : ∀ s : Session S A I, (p.run (s.complete id)).2 = (p.run s).2 ∧
    (p.run (s.complete id)).1.Alike ((p.run s).1.complete id)

/-- Whether two passes can be run in either order: the first fares as without the second, and
together they leave the same contents behind. -/
structure Pass.CommutesWith (p q : Pass S A I) : Prop where
  unread : ∀ s : Session S A I, (p.run (q.run s).1).2 = (p.run s).2
  contents : ∀ s : Session S A I, (p.run (q.run s).1).1.Alike (q.run (p.run s).1).1

/-- Whether no pass of a group reads what another one of it writes, the mark of its completion
included. -/
structure IndependentGroup (passes : PassTable S A I) (ids : List Text) : Prop where
  disregard : ∀ a ∈ ids, ∀ b ∈ ids, a ≠ b → ∀ p, passes.get? a = some p → p.Disregards b
  commute : ∀ a ∈ ids, ∀ b ∈ ids, a ≠ b → ∀ p q, passes.get? a = some p → passes.get? b = some q →
    p.CommutesWith q

/-- Whether all passes of the table see contents only. -/
def SeeContents (passes : PassTable S A I) : Prop := ∀ id p, passes.get? id = some p →
    p.SeesContents

lemma get?_of_lookUp {id : Text} {p : Pass S A I} (h : lookUp passes id = .ok p) :
    passes.get? id = some p := by
  rw [lookUp] at h
  cases hp : passes.get? id with
  | none => simp [hp] at h
  | some q =>
    simp only [hp] at h
    split at h
    · cases h
    · rw [Except.ok.inj h]

/-- What a step of a pass does to the session depends on how far the pass has come: it changes
nothing but statistics, or it is the body of the pass, or it marks the pass. -/
inductive Effect (passes : PassTable S A I) (id : Text) (progress : Progress) : Prop
  | still (h : ∀ s, (advance passes id (progress, s)).2.Alike s)
  | body (p : Pass S A I) (hp : passes.get? id = some p)
      (h : ∀ s, (advance passes id (progress, s)).2 = (p.run s).1)
  | marks (h : ∀ s, (advance passes id (progress, s)).2 = s.complete id)

lemma effect (passes : PassTable S A I) (id : Text) (progress : Progress) :
    Effect passes id progress := by
  cases progress with
  | waiting =>
    refine .still fun s => ?_
    rw [advance]
    split
    · exact s.alike_skip
    · split <;> exact .refl s
  | entered =>
    cases hfound : lookUp passes id with
    | error refusal => exact .still fun s => by simpa [advance, hfound] using Session.Alike.refl s
    | ok p => exact .body p (get?_of_lookUp hfound) fun s => by simp [advance, hfound]
  | ran cause => exact .still fun s => s.alike_spend id 0
  | noted cause =>
    cases hfound : lookUp passes id with
    | error refusal => exact .still fun s => by simpa [advance, hfound] using Session.Alike.refl s
    | ok p =>
      cases cause with
      | none => exact .marks fun s => by simp [advance, hfound]
      | some cause => exact .still fun s => by simpa [advance, hfound] using Session.Alike.refl s
  | finished outcome => exact .still fun s => .refl s

/-- What a step of a pass reads depends on how far it has come, too: whether the pass has completed
at most, or how its body ends. -/
inductive Reads (passes : PassTable S A I) (id : Text) (progress : Progress) : Prop
  | mark (h : ∀ s t : Session S A I, (id ∈ s.completed ↔ id ∈ t.completed) →
      (advance passes id (progress, s)).1 = (advance passes id (progress, t)).1)
  | body (p : Pass S A I) (hp : passes.get? id = some p)
      (h : ∀ s, (advance passes id (progress, s)).1 = .ran (p.run s).2)

lemma reads (passes : PassTable S A I) (id : Text) (progress : Progress) :
    Reads passes id progress := by
  cases progress with
  | waiting =>
    refine .mark fun s t hmark => ?_
    have hsame : s.isCompleted id = t.isCompleted id := by
      rw [Bool.eq_iff_iff, s.isCompleted_iff, t.isCompleted_iff, hmark]
    rw [advance, advance, hsame]
    split
    · rfl
    · split <;> rfl
  | entered =>
    cases hfound : lookUp passes id with
    | error refusal => exact .mark fun s t _ => by simp [advance, hfound]
    | ok p => exact .body p (get?_of_lookUp hfound) fun s => by simp [advance, hfound]
  | ran cause => exact .mark fun s t _ => rfl
  | noted cause =>
    refine .mark fun s t _ => ?_
    cases hfound : lookUp passes id <;> cases cause <;> simp [advance, hfound]
  | finished outcome => exact .mark fun s t _ => rfl

/-- Sessions with the same contents look the same to every step. -/
lemma advance_congr (hsees : SeeContents passes) (id : Text) (progress : Progress)
    {s t : Session S A I} (h : s.Alike t) :
    (advance passes id (progress, s)).1 = (advance passes id (progress, t)).1 ∧
      (advance passes id (progress, s)).2.Alike (advance passes id (progress, t)).2 := by
  constructor
  · cases reads passes id progress with
    | mark hreads => exact hreads s t (h.completed id)
    | body p hp hreads => rw [hreads, hreads, (hsees id p hp s t h).1]
  · cases effect passes id progress with
    | still heffect => exact (heffect s).trans (h.trans (heffect t).symm)
    | body p hp heffect =>
      rw [heffect, heffect]
      exact (hsees id p hp s t h).2
    | marks heffect =>
      rw [heffect, heffect]
      exact h.complete id

section Independent

variable (hsees : SeeContents passes) {ids : List Text} (hindependent : IndependentGroup passes ids)
  {a b : Text} (ha : a ∈ ids) (hb : b ∈ ids) (hab : a ≠ b) (progress progress' : Progress)
  (s : Session S A I)
include hsees hindependent ha hb hab

/-- A step of one pass of the group takes another one of it as far as without it. -/
lemma advance_unseen :
    (advance passes a (progress, (advance passes b (progress', s)).2)).1 =
      (advance passes a (progress, s)).1 := by
  cases effect passes b progress' with
  | still heffect => exact (advance_congr hsees a progress (heffect s)).1
  | body q hq heffect =>
    rw [heffect]
    cases reads passes a progress with
    | mark hreads =>
      exact hreads _ _ ((hindependent.disregard b hb a ha hab.symm q hq).unmarked s)
    | body p hp hreads => rw [hreads, hreads, (hindependent.commute a ha b hb hab p q hp hq).unread]
  | marks heffect =>
    rw [heffect]
    cases reads passes a progress with
    | mark hreads => exact hreads _ _ (by simp [hab])
    | body p hp hreads =>
      rw [hreads, hreads, ((hindependent.disregard a ha b hb hab p hp).unasked s).1]

/-- Steps of two passes of the group leave the same contents behind in either order. -/
lemma advance_comm :
    (advance passes a (progress, (advance passes b (progress', s)).2)).2.Alike
      (advance passes b (progress', (advance passes a (progress, s)).2)).2 := by
  cases effect passes a progress with
  | still heffect =>
    exact (heffect _).trans (advance_congr hsees b progress' (heffect s)).2.symm
  | body p hp heffect =>
    cases effect passes b progress' with
    | still heffect' =>
      exact (advance_congr hsees a progress (heffect' s)).2.trans (heffect' _).symm
    | body q hq heffect' =>
      simp only [heffect, heffect']
      exact (hindependent.commute a ha b hb hab p q hp hq).contents s
    | marks heffect' =>
      simp only [heffect, heffect']
      exact ((hindependent.disregard a ha b hb hab p hp).unasked s).2
  | marks heffect =>
    cases effect passes b progress' with
    | still heffect' =>
      exact (advance_congr hsees a progress (heffect' s)).2.trans (heffect' _).symm
    | body q hq heffect' =>
      simp only [heffect, heffect']
      exact ((hindependent.disregard b hb a ha hab.symm q hq).unasked s).2.symm
    | marks heffect' =>
      simp only [heffect, heffect']
      exact s.complete_comm b a

end Independent

/-! ### Turns -/

/-- A group under way: how far each pass has come, and the session they share. -/
structure Work (S A I : Type) where
  progress : Text → Progress
  session : Session S A I

namespace Work

/-- A group of which no pass has begun. -/
def start (s : Session S A I) : Work S A I := ⟨fun _ => .waiting, s⟩

/-- One pass takes its next step. -/
def turn (passes : PassTable S A I) (w : Work S A I) (id : Text) : Work S A I :=
  ⟨Function.update w.progress id (advance passes id (w.progress id, w.session)).1,
    (advance passes id (w.progress id, w.session)).2⟩

/-- The named passes take a step each, one after the other. -/
def turns (passes : PassTable S A I) (w : Work S A I) (ids : List Text) : Work S A I :=
  ids.foldl (turn passes) w

/-- Whether two groups have come equally far in sessions with the same contents. -/
structure Alike (w v : Work S A I) : Prop where
  progress : w.progress = v.progress
  session : w.session.Alike v.session

variable {w v u : Work S A I}

lemma Alike.refl (w : Work S A I) : w.Alike w := ⟨rfl, .refl _⟩

lemma Alike.trans (h : w.Alike v) (h' : v.Alike u) : w.Alike u :=
  ⟨h.progress.trans h'.progress, h.session.trans h'.session⟩

lemma Alike.turn (hsees : SeeContents passes) (h : w.Alike v) (id : Text) :
    (w.turn passes id).Alike (v.turn passes id) := by
  obtain ⟨hprogress, hsession⟩ := advance_congr hsees id (w.progress id) h.session
  rw [Work.turn, Work.turn, ← h.progress, hprogress]
  exact ⟨rfl, hsession⟩

lemma Alike.turns (hsees : SeeContents passes) (ids : List Text) (h : w.Alike v) :
    (w.turns passes ids).Alike (v.turns passes ids) := by
  induction ids generalizing w v with
  | nil => exact h
  | cons id rest ih => exact ih (h.turn hsees id)

/-- Turns of two passes of the group can change places. -/
lemma turn_turn (hsees : SeeContents passes) {ids : List Text}
    (hindependent : IndependentGroup passes ids) {a b : Text} (ha : a ∈ ids) (hb : b ∈ ids)
    (w : Work S A I) :
    ((w.turn passes b).turn passes a).Alike ((w.turn passes a).turn passes b) := by
  by_cases hab : a = b
  · rw [hab]
    exact .refl _
  · constructor
    · simp only [turn, Function.update_of_ne hab, Function.update_of_ne (Ne.symm hab)]
      rw [advance_unseen hsees hindependent ha hb hab, advance_unseen hsees hindependent hb ha
        (Ne.symm hab), Function.update_comm hab]
    · simp only [turn, Function.update_of_ne hab, Function.update_of_ne (Ne.symm hab)]
      exact advance_comm hsees hindependent ha hb hab _ _ _

/-- **The order of turns makes no difference**: a group comes equally far, in a session with the
same contents, if the same passes have as many turns in another order. -/
lemma turns_perm (hsees : SeeContents passes) {ids : List Text}
    (hindependent : IndependentGroup passes ids) {order order' : List Text}
      (hperm : order.Perm order')
    (horder : ∀ id ∈ order, id ∈ ids) (w : Work S A I) :
    (w.turns passes order).Alike (w.turns passes order') := by
  induction hperm generalizing w with
  | nil => exact .refl w
  | cons id _ ih => exact ih (fun x hx => horder x (List.mem_cons_of_mem id hx)) (w.turn passes id)
  | swap a b rest =>
    have ha : a ∈ ids := horder a (by simp)
    have hb : b ∈ ids := horder b (by simp)
    exact (turn_turn hsees hindependent ha hb w).turns hsees rest
  | trans hperm _ ih ih' =>
    exact (ih horder w).trans (ih' (fun x hx => horder x (hperm.mem_iff.mpr hx)) w)

end Work

end ContractAudit.Plan
