/-
Weighted items, and how much weight each id carries.

`alias_table` moves weight around in `item`s, pairs `(id, weight)`, and stores
its result in `table_item`s, triples `(p, a, b)`.  Weights are modelled over
`ℚ`: the balancer's and the Vose construction's arithmetic is exact here, which
is the setting every statement about them is made in.

Three readings of a list of items recur in every file after this one.
`localWeight` is the loop `alias_table` runs each time it totals a rank's items.
`massOf x` is the weight a list gives to the id `x`, so that each conservation
statement is an equation between `massOf`s.  `overlap` is the length of the
intersection of two half-open intervals, which is how the balancer's
destination blocks are measured; `clamp` turns it into a difference, and sums
of differences telescope.
-/
import Mathlib.Algebra.Order.Floor
import Mathlib.Data.Rat.Floor
import Mathlib.Algebra.BigOperators.Group.List
import Mathlib.Algebra.Order.BigOperators.Group.List

namespace Ygm

/-- `alias_table::item`: an id and the weight it carries. -/
structure Item (α : Type) where
  id : α
  weight : ℚ
  deriving DecidableEq, Repr

/-- `alias_table::table_item`: yield `a` with probability `p / avg`, otherwise `b`. -/
structure TableItem (α : Type) where
  p : ℚ
  a : α
  b : α
  deriving DecidableEq, Repr

variable {α : Type}

/-! ### Totals -/

/-- The loop `local_weight += itm.weight` over a rank's items. -/
def localWeight (items : List (Item α)) : ℚ :=
  items.foldl (fun acc itm => acc + itm.weight) 0

private theorem foldl_add_weight (items : List (Item α)) (acc : ℚ) :
    items.foldl (fun acc itm => acc + itm.weight) acc = acc + (items.map Item.weight).sum := by
  induction items generalizing acc with
  | nil => simp
  | cons itm rest ih => simp [ih, add_assoc]

theorem localWeight_eq_sum (items : List (Item α)) :
    localWeight items = (items.map Item.weight).sum := by
  simp [localWeight, foldl_add_weight]

@[simp] theorem localWeight_nil : localWeight ([] : List (Item α)) = 0 := rfl

@[simp] theorem localWeight_cons (itm : Item α) (items : List (Item α)) :
    localWeight (itm :: items) = itm.weight + localWeight items := by
  simp [localWeight_eq_sum]

@[simp] theorem localWeight_append (l₁ l₂ : List (Item α)) :
    localWeight (l₁ ++ l₂) = localWeight l₁ + localWeight l₂ := by
  simp [localWeight_eq_sum]

theorem localWeight_flatMap {β : Type} (l : List β) (f : β → List (Item α)) :
    localWeight (l.flatMap f) = (l.map fun b => localWeight (f b)).sum := by
  induction l with
  | nil => rfl
  | cons b l ih => simp [ih]

theorem localWeight_perm {l₁ l₂ : List (Item α)} (h : l₁.Perm l₂) :
    localWeight l₁ = localWeight l₂ := by
  simpa [localWeight_eq_sum] using (h.map Item.weight).sum_eq

theorem localWeight_nonneg {items : List (Item α)} (h : ∀ itm ∈ items, 0 ≤ itm.weight) :
    0 ≤ localWeight items := by
  rw [localWeight_eq_sum]
  exact List.sum_nonneg (by simpa using h)

/-- Weights that are never negative and add up to nothing are all nothing. -/
theorem weight_eq_zero_of_localWeight {items : List (Item α)}
    (h : ∀ itm ∈ items, 0 ≤ itm.weight) (hz : localWeight items = 0) :
    ∀ itm ∈ items, itm.weight = 0 := by
  induction items with
  | nil => simp
  | cons x rest ih =>
    simp only [List.mem_cons, forall_eq_or_imp] at h ⊢
    have hrest := localWeight_nonneg h.2
    simp only [localWeight_cons] at hz
    exact ⟨by linarith [h.1], ih h.2 (by linarith [h.1])⟩

theorem ne_nil_of_localWeight_pos {items : List (Item α)} (h : 0 < localWeight items) :
    items ≠ [] := by
  rintro rfl
  simp at h

theorem localWeight_le_mul {avg : ℚ} {light : List (Item α)} (hle : ∀ x ∈ light, x.weight ≤ avg) :
    localWeight light ≤ avg * light.length := by
  induction light with
  | nil => simp
  | cons x rest ih =>
    simp only [List.mem_cons, forall_eq_or_imp] at hle
    simp only [localWeight_cons, List.length_cons]
    push_cast
    linarith [ih hle.2, hle.1]

theorem mul_le_localWeight {avg : ℚ} {heavy : List (Item α)} (hge : ∀ x ∈ heavy, avg ≤ x.weight) :
    avg * heavy.length ≤ localWeight heavy := by
  induction heavy with
  | nil => simp
  | cons x rest ih =>
    simp only [List.mem_cons, forall_eq_or_imp] at hge
    simp only [localWeight_cons, List.length_cons]
    push_cast
    linarith [ih hge.2, hge.1]

/-- Weights at least `avg` that average exactly `avg` are all `avg`. -/
theorem weight_eq_of_localWeight_eq {avg : ℚ} {heavy : List (Item α)}
    (hge : ∀ x ∈ heavy, avg ≤ x.weight) (hs : localWeight heavy = avg * heavy.length) :
    ∀ x ∈ heavy, x.weight = avg := by
  induction heavy with
  | nil => simp
  | cons y rest ih =>
    simp only [List.mem_cons, forall_eq_or_imp] at hge ⊢
    have hrest := mul_le_localWeight hge.2
    simp only [localWeight_cons, List.length_cons] at hs
    push_cast at hs
    exact ⟨by linarith [hge.1], ih hge.2 (by linarith [hge.1])⟩

/-! ### Weight per id -/

section Mass

variable [DecidableEq α]

/-- The weight the list gives to the id `x`. -/
def massOf (x : α) (items : List (Item α)) : ℚ :=
  (items.map fun itm => if itm.id = x then itm.weight else 0).sum

@[simp] theorem massOf_nil (x : α) : massOf x ([] : List (Item α)) = 0 := rfl

@[simp] theorem massOf_cons (x : α) (itm : Item α) (items : List (Item α)) :
    massOf x (itm :: items) = (if itm.id = x then itm.weight else 0) + massOf x items := by
  simp [massOf]

@[simp] theorem massOf_append (x : α) (l₁ l₂ : List (Item α)) :
    massOf x (l₁ ++ l₂) = massOf x l₁ + massOf x l₂ := by
  simp [massOf]

theorem massOf_flatMap {β : Type} (x : α) (l : List β) (f : β → List (Item α)) :
    massOf x (l.flatMap f) = (l.map fun b => massOf x (f b)).sum := by
  induction l with
  | nil => rfl
  | cons b l ih => simp [ih]

theorem massOf_perm (x : α) {l₁ l₂ : List (Item α)} (h : l₁.Perm l₂) :
    massOf x l₁ = massOf x l₂ :=
  (h.map _).sum_eq

/-- Items of weight zero carry no id any weight. -/
theorem massOf_eq_zero (x : α) {items : List (Item α)} (h : ∀ itm ∈ items, itm.weight = 0) :
    massOf x items = 0 := by
  induction items with
  | nil => rfl
  | cons itm rest ih =>
    simp only [List.mem_cons, forall_eq_or_imp] at h
    simp [h.1, ih h.2]

end Mass

/-! ### Intervals -/

/-- The length of `[a, b) ∩ [c, e)`. -/
def overlap (a b c e : ℚ) : ℚ := max 0 (min b e - max a c)

/-- `y` pushed into the block `[c, e]`. -/
def clamp (c e y : ℚ) : ℚ := max c (min y e)

theorem clamp_of_le {c e y : ℚ} (h : y ≤ c) : clamp c e y = c := by
  simp [clamp, min_le_of_left_le h]

theorem clamp_of_ge {c e y : ℚ} (hce : c ≤ e) (h : e ≤ y) : clamp c e y = e := by
  simp [clamp, min_eq_right h, hce]

theorem clamp_of_mem {c e y : ℚ} (h₁ : c ≤ y) (h₂ : y ≤ e) : clamp c e y = y := by
  simp [clamp, min_eq_left h₂, h₁]

/-- For `a ≤ b`, the overlap with `[c, e)` is what clamping gains between `a` and `b`. -/
theorem overlap_eq_clamp_sub {a b c e : ℚ} (hab : a ≤ b) (hce : c ≤ e) :
    overlap a b c e = clamp c e b - clamp c e a := by
  unfold overlap
  rcases le_total b c with hbc | hcb
  · rw [clamp_of_le hbc, clamp_of_le (hab.trans hbc), sub_self]
    exact max_eq_left (by linarith [min_le_left b e, le_max_right a c])
  rcases le_total e a with hea | hae
  · rw [clamp_of_ge hce (hea.trans hab), clamp_of_ge hce hea, sub_self]
    exact max_eq_left (by linarith [min_le_right b e, le_max_left a c])
  · have hmin : clamp c e b = min b e := max_eq_right (le_min hcb hce)
    have hmax : clamp c e a = max a c := by
      rw [clamp, min_eq_left hae, max_comm]
    rw [hmin, hmax]
    exact max_eq_right (by simp only [sub_nonneg, max_le_iff, le_min_iff]; exact ⟨⟨hab, hcb⟩, hae, hce⟩)

end Ygm
