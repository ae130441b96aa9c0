/-
Module: Dedup.Lib.StateTriple
Purpose: Hoare triples of stateful computations over plain predicates on the state: what they say
  of a run, the rule of consequence, and facts that a precondition has beside the state.
Main exports: bind_apply, triple_iff, triple_consequence, triple_of_imp, triple_bind,
  triple_pure
-/
import Mathlib

namespace Dedup

open Std.Do

variable {σ α : Type}

/-- A sequence runs its parts one after the other. -/
theorem bind_apply {β : Type} (m : StateM σ α) (f : α → StateM σ β) (s : σ) :
    (m >>= f) s = f (m s).1 (m s).2 := rfl

/-- A triple is a statement about every run. -/
theorem triple_iff {m : StateM σ α} {pre : σ → Prop} {post : α → σ → Prop} :
    ⦃fun s => ⌜pre s⌝⦄ m ⦃⇓ result s => ⌜post result s⌝⦄ ↔
      ∀ s, pre s → post (m s).1 (m s).2 :=
  Iff.rfl

/-- A triple holds from less and to more. -/
theorem triple_consequence {m : StateM σ α} {pre pre' : σ → Prop} {post post' : α → σ → Prop}
    (h : ⦃fun s => ⌜pre s⌝⦄ m ⦃⇓ result s => ⌜post result s⌝⦄) (hpre : ∀ s, pre' s → pre s)
    (hpost : ∀ result s, post result s → post' result s) :
    ⦃fun s => ⌜pre' s⌝⦄ m ⦃⇓ result s => ⌜post' result s⌝⦄ := by
  rw [triple_iff] at h ⊢
  intro s hs
  exact hpost _ _ (h s (hpre s hs))

/-- What the precondition says of everything but the state may be used. -/
theorem triple_of_imp {m : StateM σ α} {pre : σ → Prop} {post : α → σ → Prop} {fact : Prop}
    (hfact : ∀ s, pre s → fact)
    (h : fact → ⦃fun s => ⌜pre s⌝⦄ m ⦃⇓ result s => ⌜post result s⌝⦄) :
    ⦃fun s => ⌜pre s⌝⦄ m ⦃⇓ result s => ⌜post result s⌝⦄ := by
  rw [triple_iff]
  intro s hs
  exact triple_iff.mp (h (hfact s hs)) s hs

/-- The rule of sequences, over plain predicates. -/
theorem triple_bind {β : Type} {m : StateM σ α} {f : α → StateM σ β} {pre : σ → Prop}
    {mid : α → σ → Prop} {post : β → σ → Prop}
    (hm : ⦃fun s => ⌜pre s⌝⦄ m ⦃⇓ result s => ⌜mid result s⌝⦄)
    (hf : ∀ value, ⦃fun s => ⌜mid value s⌝⦄ f value ⦃⇓ result s => ⌜post result s⌝⦄) :
    ⦃fun s => ⌜pre s⌝⦄ (m >>= f) ⦃⇓ result s => ⌜post result s⌝⦄ := by
  rw [triple_iff] at hm ⊢
  intro s hs
  exact triple_iff.mp (hf (m s).1) _ (hm s hs)

/-- The rule of a value. -/
theorem triple_pure {pre : σ → Prop} {post : α → σ → Prop} {value : α}
    (h : ∀ s, pre s → post value s) :
    ⦃fun s => ⌜pre s⌝⦄ (pure value : StateM σ α) ⦃⇓ result s => ⌜post result s⌝⦄ :=
  triple_iff.mpr h

end Dedup
