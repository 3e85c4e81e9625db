/-
The queue-order policies of `work_queue`.

`detail/work_queue_policy.hpp` puts three standard containers behind one static
surface: `fifo_policy` over `std::queue`, `lifo_policy` over `std::stack` and
`priority_policy` over `std::priority_queue` with a comparator `Comp`.  We keep a
queue's contents as a list.  Every `push` appends, so for the first two the list
is in insertion order; a policy is then what its `top` reads and what its `pop`
removes: the front, the back, or a `Comp`-greatest item.

A `QueuePolicy` carries the one law the drain needs: `pop` removes exactly the
item `top` returned.  `std::priority_queue` promises only that `top()` is no
`Comp`-less than any other item; which of several such items comes first is up to
the heap.  The model's scan keeps the first item it meets and moves on to a later
one only when that one is `Comp`-greater, and lists the rest in some order, as a
heap does.
-/
import Mathlib.Data.List.Basic

namespace Ygm

variable {α : Type}

/-- A comparator as `std::priority_queue` requires it: a strict weak order. -/
structure Compare (α : Type) where
  lt : α → α → Bool
  irrefl : ∀ a, lt a a = false
  trans : ∀ a b c, lt a b = true → lt b c = true → lt a c = true
  incomparable_trans : ∀ a b c, lt a b = false → lt b a = false → lt b c = false →
    lt c b = false → lt a c = false ∧ lt c a = false

/-- Not lying `Comp`-below is transitive: `¬ a < b` and `¬ b < d` give `¬ a < d`, since
`a < d` would leave `b` comparable to neither. -/
theorem Compare.not_lt_trans (c : Compare α) {a b d : α} (hab : c.lt a b = false)
    (hbd : c.lt b d = false) : c.lt a d = false := by
  cases had : c.lt a d
  · rfl
  · have hba : c.lt b a = false := by
      cases h : c.lt b a
      · rfl
      · rw [← hbd, c.trans _ _ _ h had]
    have hdb : c.lt d b = false := by
      cases h : c.lt d b
      · rfl
      · rw [← hab, c.trans _ _ _ had h]
    rw [← had, (c.incomparable_trans a b d hab hba hbd hdb).1]

/-- The surface `work_queue` calls on its `QueuePolicy`: `top` of a non-empty queue, and
the `pop` that removes what `top` returned. -/
structure QueuePolicy (α : Type) where
  top : (q : List α) → q ≠ [] → α
  pop : List α → List α
  pop_perm : ∀ q (h : q ≠ []), (top q h :: pop q).Perm q

/-- `QueuePolicy::push`: each of the three containers appends the item. -/
def QueuePolicy.push (_ : QueuePolicy α) (q : List α) (item : α) : List α := q ++ [item]

@[simp] theorem QueuePolicy.foldl_push (P : QueuePolicy α) (q ins : List α) :
    ins.foldl P.push q = q ++ ins := by
  induction ins generalizing q with
  | nil => simp
  | cons x ins ih => simp [ih, QueuePolicy.push]

/-! ### The three policies -/

/-- `fifo_policy`: `std::queue`, whose `front()` is the earliest item left. -/
def fifoPolicy : QueuePolicy α where
  top q h := q.head h
  pop q := q.tail
  pop_perm q h := by rw [List.head_cons_tail]

/-- `lifo_policy`: `std::stack`, whose `top()` is the latest item left. -/
def lifoPolicy : QueuePolicy α where
  top q h := q.getLast h
  pop q := q.dropLast
  pop_perm q h := by
    conv_rhs => rw [← List.dropLast_append_getLast h]
    exact (List.perm_append_singleton _ _).symm

/-- The scan behind `priority_policy`'s `top()` and `pop()`: keep `best` until a later item
is `Comp`-greater, and list the items passed over. -/
def extractMax (c : Compare α) : α → List α → α × List α
  | best, [] => (best, [])
  | best, x :: xs =>
    if c.lt best x then
      let r := extractMax c x xs
      (r.1, best :: r.2)
    else
      let r := extractMax c best xs
      (r.1, x :: r.2)

/-- The scan passes over every item but the one it keeps. -/
theorem extractMax_perm (c : Compare α) (best : α) (l : List α) :
    ((extractMax c best l).1 :: (extractMax c best l).2).Perm (best :: l) := by
  induction l generalizing best with
  | nil => rfl
  | cons x xs ih =>
    simp only [extractMax]
    split
    · exact (List.Perm.swap _ _ _).trans ((ih x).cons best)
    · exact (List.Perm.swap _ _ _).trans (((ih best).cons x).trans (List.Perm.swap _ _ _))

/-- `priority_policy`: `std::priority_queue<Item, std::vector<Item>, Comp>`. -/
def priorityPolicy (c : Compare α) : QueuePolicy α where
  top q h := match q, h with
    | a :: l, _ => (extractMax c a l).1
  pop q := match q with
    | [] => []
    | a :: l => (extractMax c a l).2
  pop_perm q h := match q, h with
    | a :: l, _ => extractMax_perm c a l

/-- `std::greater<size_t>`, the comparator of the recursive priority test: `Comp(a, b)` is
`a > b`, so the heap's `top()` is the least item. -/
def stdGreater : Compare ℕ where
  lt a b := decide (b < a)
  irrefl a := by simp
  trans a b c := by simp only [decide_eq_true_eq]; omega
  incomparable_trans a b c := by simp only [decide_eq_false_iff_not]; omega

example : (priorityPolicy stdGreater).top [3, 1, 2] (List.cons_ne_nil _ _) = 1 := rfl

/-! ### What each policy's `top` is -/

theorem fifoPolicy_top {q : List α} (h : q ≠ []) : q.head? = some (fifoPolicy.top q h) :=
  List.head?_eq_head h

theorem lifoPolicy_top {q : List α} (h : q ≠ []) : q.getLast? = some (lifoPolicy.top q h) :=
  List.getLast?_eq_getLast q h

/-- The scan ends on an item at or above where it started, and no item is `Comp`-greater
than that one. -/
theorem extractMax_max (c : Compare α) (best : α) (l : List α) :
    ((extractMax c best l).1 = best ∨ c.lt best (extractMax c best l).1 = true) ∧
      ∀ y ∈ best :: l, c.lt (extractMax c best l).1 y = false := by
  induction l generalizing best with
  | nil => simp [extractMax, c.irrefl]
  | cons x xs ih =>
    simp only [extractMax]
    split
    · next hlt =>
      obtain ⟨hge, hmax⟩ := ih x
      have hx : c.lt best (extractMax c x xs).1 = true := by
        rcases hge with h | h
        · rwa [h]
        · exact c.trans _ _ _ hlt h
      refine ⟨.inr hx, ?_⟩
      simp only [List.mem_cons, forall_eq_or_imp] at hmax ⊢
      refine ⟨?_, hmax⟩
      cases hm : c.lt (extractMax c x xs).1 best
      · rfl
      · simpa [hmax.1] using c.trans _ _ _ hm hlt
    · next hlt =>
      obtain ⟨hge, hmax⟩ := ih best
      refine ⟨hge, ?_⟩
      simp only [List.mem_cons, forall_eq_or_imp] at hmax ⊢
      refine ⟨hmax.1, ?_, hmax.2⟩
      rcases hge with h | h
      · rw [h]; simpa using hlt
      · cases hm : c.lt (extractMax c best xs).1 x
        · rfl
        · simpa [hlt] using c.trans _ _ _ h hm

/-- `priority_policy`'s `top` is an item of the queue that no item is `Comp`-greater than. -/
theorem priorityPolicy_top (c : Compare α) {q : List α} (h : q ≠ []) :
    (priorityPolicy c).top q h ∈ q ∧ ∀ y ∈ q, c.lt ((priorityPolicy c).top q h) y = false :=
  ⟨((priorityPolicy c).pop_perm q h).subset (List.mem_cons_self _ _), by
    match q, h with
    | a :: l, _ => exact (extractMax_max c a l).2⟩

end Ygm
