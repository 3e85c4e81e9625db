/-
How many callbacks each object has.

`local_insert` registers a pre-barrier callback only when `m_callback_registered`
is clear, and the callback clears the flag when its drain ends.  So the flag is
meant to count the callbacks bound to its object: set exactly when one of them is
pending or draining, and no object ever has two.

  * Every operation but a construction and a move keeps that count, whatever the
    interleaving.
  * A construction or a move keeps it too when the objects it sets afresh have
    their flag clear, as after a barrier.  A move out of an object whose callback
    is still pending clears the flag under that callback, and a move into one
    registers a second callback beside it; building a new object where a callback
    is still bound does the same at its next insert.
-/
import Ygm.Container.Ledger

namespace Ygm

variable {α W : Type} {P : QueuePolicy α} {w w' : World α W}

open World

/-- The flag counts the callbacks bound to each object: one, pending or draining it, when the
flag is set, none when it is clear. -/
def OneCallback (w : World α W) : Prop :=
  ∀ o, (w.pending ++ w.draining).count o = if (w.queues o).callbackRegistered then 1 else 0

/-- The objects whose flag an action sets afresh: a construction's object, and both ends of a
move between two objects. -/
def Action.resets : Action α W → List ℕ
  | .construct o _ => [o]
  | .moveConstruct dst src => [dst, src]
  | .moveAssign dst src => if dst = src then [] else [dst, src]
  | _ => []

/-- The objects an action sets afresh while a callback is bound to them. -/
def World.resetWhileBound (w : World α W) (a : Action α W) : List ℕ :=
  a.resets.filter fun o => (w.queues o).callbackRegistered

section Count

variable {o : ℕ}

theorem OneCallback.setQueue (hc : OneCallback w) {q : WorkQueue α W}
    (hq : q.callbackRegistered = (w.queues o).callbackRegistered) : OneCallback (w.setQueue o q) :=
  fun p => by
    by_cases hp : p = o
    · subst hp; simpa [hq] using hc p
    · simpa [hp] using hc p

/-- Registering a callback for an object with its flag clear gives it its one callback. -/
theorem OneCallback.register (hc : OneCallback w) (ho : (w.queues o).callbackRegistered = false) :
    OneCallback (w.registerProcessingCallback o) := fun p => by
  have e := hc p
  by_cases hp : p = o
  · subst hp
    simp [ho, List.count_append] at e
    simp [registerProcessingCallback, List.count_append, e]
  · simpa [registerProcessingCallback, List.count_append, hp, Ne.symm hp] using e

theorem OneCallback.localInsert (hc : OneCallback w) (o : ℕ) (item : α) :
    OneCallback (w.localInsert P o item) := by
  dsimp only [World.localInsert]
  have h₁ := hc.setQueue (o := o)
    (q := { w.queues o with localQueue := P.push (w.queues o).localQueue item }) rfl
  split
  · next h => exact h₁.register (by simpa using h)
  · exact h₁

/-- A move between two objects with their flags clear: the source is left with none, the
destination with one iff it has work. -/
theorem OneCallback.finishMove (hc : OneCallback w) {dst src : ℕ} (h : dst ≠ src)
    (hdst : (w.queues dst).callbackRegistered = false)
    (hsrc : (w.queues src).callbackRegistered = false) {q : WorkQueue α W}
    (hq : q.callbackRegistered = false) : OneCallback (w.finishMove dst src q) := by
  have h₁ := hc.setQueue (o := dst) (q := q) (by rw [hq, hdst])
  have h₂ := h₁.setQueue (o := src)
    (q := { (w.setQueue dst q).queues src with localQueue := [], callbackRegistered := false })
    (by simp [Ne.symm h, hsrc])
  dsimp only [World.finishMove]
  split
  · exact h₂.register (by simp [h, hq])
  · exact h₂

end Count

/-- One action keeps the count when it sets afresh only objects with their flag clear. -/
theorem OneCallback.act (hc : OneCallback w) {a : Action α W} (hg : w.resetWhileBound a = [])
    (h : w.act P a = some w') : OneCallback w' := by
  have hfree : ∀ o ∈ a.resets, (w.queues o).callbackRegistered = false := fun o ho => by
    simpa using List.filter_eq_nil_iff.1 hg o ho
  cases a with
  | construct o f =>
    cases h
    exact hc.setQueue (hfree o (List.mem_singleton_self o)).symm
  | localInsert o item => cases h; exact hc.localInsert o item
  | localClear o => cases h; exact hc.setQueue rfl
  | moveConstruct dst src =>
    simp only [World.act] at h
    split_ifs at h with hds
    cases h
    exact hc.finishMove hds (hfree dst (by simp [Action.resets]))
      (hfree src (by simp [Action.resets])) rfl
  | moveAssign dst src =>
    cases h
    by_cases hds : dst = src
    · simpa [World.moveAssign, hds] using hc
    · simp only [World.moveAssign, if_neg hds]
      exact hc.finishMove hds (hfree dst (by simp [Action.resets, hds]))
        (hfree src (by simp [Action.resets, hds])) rfl
  | send o item => cases h; exact hc
  | deliver k =>
    simp only [World.act] at h
    split_ifs at h
    cases h
    exact OneCallback.localInsert
      (w := { w with inFlight := w.inFlight.take k ++ w.inFlight.drop (k + 1) }) hc _ _
  | runCallback o =>
    simp only [World.act] at h
    split_ifs at h with ho
    cases h
    intro p
    simp only [World.runCallback]
    rw [← hc p]
    exact (((List.perm_cons_erase ho).append_right _).trans List.perm_middle.symm).count_eq p |>.symm
  | processTop o =>
    simp only [World.act] at h
    split_ifs at h
    cases h
    exact hc.setQueue (o := o) rfl
  | finishCallback o =>
    simp only [World.act] at h
    split_ifs at h with ho
    cases h
    intro p
    have e := hc p
    by_cases hp : p = o
    · subst hp
      have hd : 0 < w.draining.count p := List.count_pos_iff.2 ho.1
      simp only [List.count_append] at e
      split_ifs at e
      · simp [World.finishCallback, List.count_append, List.count_erase_self]
        omega
      · omega
    · simpa [World.finishCallback, List.count_append, List.count_erase_of_ne hp, hp] using e

/-- A run keeps the count when none of its actions sets afresh an object with its flag set. -/
theorem OneCallback.run : ∀ (as : List (Action α W)) (w : World α W), OneCallback w →
    w.recordAlong P World.resetWhileBound as = [] → w.run P as = some w' → OneCallback w'
  | [], w, hc, _, h => by cases h; exact hc
  | a :: as, w, hc, hg, h => by
    obtain ⟨w₁, h₁, h₂⟩ := Option.bind_eq_some.mp h
    simp only [World.recordAlong, h₁, Option.map_some', Option.getD_some, List.append_eq_nil] at hg
    exact OneCallback.run as w₁ (hc.act hg.1 h₁) hg.2 h₂

theorem oneCallback_init (f : W) : OneCallback (World.init f : World α W) := fun o => by
  simp [World.init]

/-- No object ever has two callbacks, and the flag says whether it has one: from the start,
after any interleaving of operations in which no construction or move sets afresh an object
whose flag is set, each object has one callback pending or draining if its
m_callback_registered is set and none if it is clear. -/
theorem run_flag_counts_callbacks (P : QueuePolicy α) (f : W) (as : List (Action α W))
    {w : World α W} (h : (World.init f).run P as = some w)
    (hg : (World.init f).recordAlong P World.resetWhileBound as = []) :
    OneCallback w ∧ (w.pending ++ w.draining).Nodup := by
  have hc := (oneCallback_init f).run as _ hg h
  refine ⟨hc, List.nodup_iff_count_le_one.2 fun o => ?_⟩
  rw [hc o]
  split <;> omega

/-- Object 1 is built and drained by a barrier, then moved into object 2, which gets work and
its one callback. -/
theorem run_flag_counts_callbacks_move_after_barrier :
    let acts : List (Action ℕ ℕ) := [.construct 1 2, .localInsert 1 5, .runCallback 1,
      .processTop 1, .finishCallback 1, .moveConstruct 2 1, .localInsert 2 6]
    ∃ w, (World.init 0 : World ℕ ℕ).run fifoPolicy acts = some w ∧
      (World.init 0 : World ℕ ℕ).recordAlong fifoPolicy World.resetWhileBound acts = [] ∧
      w.pending = [2] ∧ OneCallback w ∧ (w.pending ++ w.draining).Nodup :=
  by intro acts; exact ⟨_, rfl, rfl, rfl, run_flag_counts_callbacks fifoPolicy 0 acts rfl rfl⟩

end Ygm
