import Mathlib.Algebra.BigOperators.Group.List.Basic
import Mathlib.Algebra.Ring.Nat
import Overseer.Amount

/-!
Sums of figures, exact and cut down (`Amount.sum_eq_clamp`).  Sums over lists of different keys are
compared key by key (`sum_map_le_of_key`).
-/

namespace Overseer

namespace Amount

/-- Cutting down after every addition is cutting down the exact sum. -/
theorem sum_eq_clamp (as : List Nat) : sum as = clamp as.sum := by
  have foldl_add : ∀ n, as.foldl add (clamp n) = clamp (n + as.sum) := by
    induction as with
    | nil => intro n; rfl
    | cons a as ih =>
      intro n
      rw [List.foldl_cons, add_clamp, ih, List.sum_cons, Nat.add_assoc]
  have h := foldl_add 0
  rwa [Nat.zero_add, clamp_of_le (Nat.zero_le _)] at h

theorem sum_le (as : List Nat) : sum as ≤ limit := by
  rw [sum_eq_clamp]
  exact clamp_le _

theorem sum_perm {as bs : List Nat} (h : as.Perm bs) : sum as = sum bs := by
  rw [sum_eq_clamp, sum_eq_clamp, h.sum_eq]

end Amount

/-- Another summand in the place of one. -/
theorem sum_map_set_add {α : Type} (f : α → Nat) {as : List α} {i : Nat} {a : α}
    (h : as[i]? = some a) (b : α) : ((as.set i b).map f).sum + f a = (as.map f).sum + f b := by
  induction as generalizing i with
  | nil => cases h
  | cons c as ih =>
    cases i with
    | zero =>
      cases h
      simp only [List.set_cons_zero, List.map_cons, List.sum_cons]
      omega
    | succ i =>
      have hrest := ih h
      simp only [List.set_cons_succ, List.map_cons, List.sum_cons]
      omega

/-- Sums over lists compare when every summand of the first finds a summand of its own in the
second; the keys tell them apart. -/
theorem sum_map_le_of_key {α β : Type} (key : β → α) {f : α → Nat} {g : β → Nat} {as : List α}
    {bs : List β} (hnodup : as.Nodup)
    (h : ∀ a ∈ as, f a ≠ 0 → ∃ b ∈ bs, key b = a ∧ f a ≤ g b) :
    (as.map f).sum ≤ (bs.map g).sum := by
  induction as generalizing bs with
  | nil => exact Nat.zero_le _
  | cons a as ih =>
    obtain ⟨ha, has⟩ := List.forall_mem_cons.mp h
    obtain ⟨hnew, hrest⟩ := List.nodup_cons.mp hnodup
    rw [List.map_cons, List.sum_cons]
    by_cases hzero : f a = 0
    · rw [hzero, Nat.zero_add]
      exact ih hrest has
    · obtain ⟨b, hb, hkey, hle⟩ := ha hzero
      obtain ⟨front, back, rfl⟩ := List.append_of_mem hb
      -- the others find theirs in what is left without `b`
      have hothers : ∀ c ∈ as, f c ≠ 0 → ∃ d ∈ front ++ back, key d = c ∧ f c ≤ g d := by
        intro c hc hpos
        obtain ⟨d, hd, hdkey, hdle⟩ := has c hc hpos
        have hne : d ≠ b := by
          rintro rfl
          exact hnew (hkey ▸ hdkey ▸ hc)
        refine ⟨d, ?_, hdkey, hdle⟩
        simpa [hne] using hd
      have hsum := ih hrest hothers
      rw [List.map_append, List.sum_append] at hsum
      rw [List.map_append, List.map_cons, List.sum_append, List.sum_cons]
      omega

/-- Lists of the same different keys have the same sum. -/
theorem sum_map_eq_of_nodup {α : Type} (f : α → Nat) {as bs : List α} (has : as.Nodup)
    (hbs : bs.Nodup) (h : ∀ a, a ∈ as ↔ a ∈ bs) : (as.map f).sum = (bs.map f).sum :=
  (((List.perm_ext_iff_of_nodup has hbs).mpr h).map f).sum_eq

end Overseer
