/-
Where every item goes, over any interleaving.

`Step` says what can happen; this file names each happening.  An `Action` is
one call of the world's operations, with the arguments that pick it out, and
`World.act` performs it, or answers `none` when what it needs does not hold: a
move onto itself, a message index past the end, a callback that is not pending or
not draining, a drain step on an empty queue, the end of a drain on a full one.
Performing actions is exactly taking steps (`reachable_iff_run`), so the
executable layer and the relational one describe the same worlds.

Over that layer we keep a ledger.  An insert or a send brings an item in;
`local_clear` drops a queue's contents, and a construction or a move drops what
its destination held.  Nothing else makes an item appear or disappear: the
barrier's steps move items from messages to queues and from queues to calls of
the work functions, and a move carries the source's items over to its
destination.  So over any run, what the work functions received and what is
still queued or in flight, with everything dropped on the way, is what was
brought in, each item once; and once the barrier has returned nothing is queued
or in flight.  Over the part of a run that happens while a barrier runs, with the
inserts and sends its work functions and message handlers make, nothing is
dropped: the barrier hands the work functions what was queued or in flight when
it started and what was added meanwhile, each once.

The same bookkeeping per object, under `fifo_policy`, gives the order: what the
drains take from an object, then what it still holds, is what it held, then what
was pushed onto it.
-/
import Ygm.Container.Barrier

namespace Ygm

variable {α W : Type}

/-- The world's operations, one for each kind of `Step`: what user code, work functions and
message handlers call, and what the barrier does.  `deliver k` runs the handler of the `k`-th
message in flight. -/
inductive Action (α W : Type)
  | construct (o : ℕ) (f : W)
  | localInsert (o : ℕ) (item : α)
  | localClear (o : ℕ)
  | moveConstruct (dst src : ℕ)
  | moveAssign (dst src : ℕ)
  | send (o : ℕ) (item : α)
  | deliver (k : ℕ)
  | runCallback (o : ℕ)
  | processTop (o : ℕ)
  | finishCallback (o : ℕ)

namespace World

/-- Perform one action, if what it needs holds. -/
def act (P : QueuePolicy α) (w : World α W) : Action α W → Option (World α W)
  | .construct o f => some (w.construct o f)
  | .localInsert o item => some (w.localInsert P o item)
  | .localClear o => some (w.localClear o)
  | .moveConstruct dst src => if dst = src then none else some (w.moveConstruct dst src)
  | .moveAssign dst src => some (w.moveAssign dst src)
  | .send o item => some (w.send o item)
  | .deliver k =>
    if h : k < w.inFlight.length then
      some (w.deliver P (w.inFlight.take k) w.inFlight[k] (w.inFlight.drop (k + 1)))
    else none
  | .runCallback o => if o ∈ w.pending then some (w.runCallback o) else none
  | .processTop o =>
    if o ∈ w.draining then
      if h : (w.queues o).localQueue.isEmpty then none
      else some (w.processTop P o (by simpa using h))
    else none
  | .finishCallback o =>
    if o ∈ w.draining ∧ (w.queues o).localQueue.isEmpty then some (w.finishCallback o) else none

/-- Perform actions one after another, while each can be performed. -/
def run (P : QueuePolicy α) : List (Action α W) → World α W → Option (World α W)
  | [], w => some w
  | a :: as, w => (w.act P a).bind fun w' => w'.run P as

end World

open World

variable {P : QueuePolicy α} {w w' : World α W}

/-! ### Actions are steps -/

theorem step_of_act {a : Action α W} (h : w.act P a = some w') : Step P w w' := by
  cases a with
  | construct o f => cases h; exact .construct w o f
  | localInsert o item => cases h; exact .localInsert w o item
  | localClear o => cases h; exact .localClear w o
  | moveConstruct dst src =>
    simp only [act] at h
    split_ifs at h with hds
    cases h; exact .moveConstruct w dst src hds
  | moveAssign dst src => cases h; exact .moveAssign w dst src
  | send o item => cases h; exact .send w o item
  | deliver k =>
    simp only [act] at h
    split_ifs at h with hk
    cases h
    exact .deliver w _ _ _ (by rw [List.cons_getElem_drop_succ, List.take_append_drop])
  | runCallback o =>
    simp only [act] at h
    split_ifs at h with ho
    cases h; exact .runCallback w o ho
  | processTop o =>
    simp only [act] at h
    split_ifs at h with hd he
    cases h; exact .processTop w o hd _
  | finishCallback o =>
    simp only [act] at h
    split_ifs at h with hd
    cases h; exact .finishCallback w o hd.1 (by simpa using hd.2)

theorem exists_act_of_step (h : Step P w w') : ∃ a : Action α W, w.act P a = some w' := by
  cases h with
  | construct o f => exact ⟨.construct o f, rfl⟩
  | localInsert o item => exact ⟨.localInsert o item, rfl⟩
  | localClear o => exact ⟨.localClear o, rfl⟩
  | moveConstruct dst src h => exact ⟨.moveConstruct dst src, if_neg h⟩
  | moveAssign dst src => exact ⟨.moveAssign dst src, rfl⟩
  | send o item => exact ⟨.send o item, rfl⟩
  | deliver pre m post h =>
    refine ⟨.deliver pre.length, ?_⟩
    have hk : pre.length < w.inFlight.length := by simp [h]
    simp only [act, dif_pos hk]
    simp [h, List.getElem_append_right]
  | runCallback o h => exact ⟨.runCallback o, if_pos h⟩
  | processTop o hd h =>
    refine ⟨.processTop o, ?_⟩
    simp only [act, if_pos hd]
    rw [dif_neg (by simpa using h)]
  | finishCallback o hd h =>
    exact ⟨.finishCallback o, if_pos ⟨hd, by simpa using h⟩⟩

theorem steps_of_run : ∀ (as : List (Action α W)) (w : World α W), w.run P as = some w' →
    Relation.ReflTransGen (Step P) w w'
  | [], w, h => by cases h; exact .refl
  | a :: as, w, h => by
    obtain ⟨w₁, h₁, h₂⟩ := Option.bind_eq_some.mp h
    exact .head (step_of_act h₁) (steps_of_run as w₁ h₂)

theorem run_append (as bs : List (Action α W)) (w : World α W) :
    w.run P (as ++ bs) = (w.run P as).bind fun w' => w'.run P bs := by
  induction as generalizing w with
  | nil => rfl
  | cons a as ih =>
    simp only [List.cons_append, run]
    cases w.act P a <;> simp [ih]

/-- The worlds the steps reach are the worlds runs of actions reach. -/
theorem reachable_iff_run {f : W} :
    Reachable P f w ↔ ∃ as : List (Action α W), (World.init f).run P as = some w := by
  refine ⟨fun h => ?_, fun ⟨as, h⟩ => steps_of_run as _ h⟩
  induction h with
  | refl => exact ⟨[], rfl⟩
  | tail _ hs ih =>
    obtain ⟨as, has⟩ := ih
    obtain ⟨a, ha⟩ := exists_act_of_step hs
    exact ⟨as ++ [a], by simp [run_append, has, run, ha]⟩

/-! ### Where the items go -/

/-- The item an insert or a send brings in. -/
def Action.added : Action α W → List α
  | .localInsert _ item => [item]
  | .send _ item => [item]
  | _ => []

/-- The objects an action can put items into. -/
def Action.targets : Action α W → List ℕ
  | .localInsert o _ => [o]
  | .send o _ => [o]
  | .moveConstruct dst _ => [dst]
  | .moveAssign dst _ => [dst]
  | _ => []

/-- The items an action drops: what `local_clear` discards, and what a construction or a move
overwrites at its destination. -/
def World.dropped (w : World α W) : Action α W → List α
  | .construct o _ => (w.queues o).localQueue
  | .localClear o => (w.queues o).localQueue
  | .moveConstruct dst _ => (w.queues dst).localQueue
  | .moveAssign dst src => if dst = src then [] else (w.queues dst).localQueue
  | _ => []

/-- Everything a run of actions drops, each action's drop taken in the world it acts on. -/
def World.droppedAlong (P : QueuePolicy α) : List (Action α W) → World α W → List α
  | [], _ => []
  | a :: as, w => w.dropped a ++ ((w.act P a).map fun w' => w'.droppedAlong P as).getD []

/-- What the work functions have received, then what the objects `objs` hold and the messages
carry. -/
def World.items (w : World α W) (objs : List ℕ) : List α := w.invoked.map Prod.snd ++ w.held objs

section Ledger

variable {objs : List ℕ}

theorem perm_append_swap_right {β : Type} (A I B : List β) : (A ++ I ++ B).Perm (A ++ B ++ I) := by
  simpa only [List.append_assoc] using List.perm_append_comm.append_left A

theorem held_perm_of_update (hnd : objs.Nodup) {o : ℕ} {L : List α}
    (ho : o ∈ objs ∨ (w.queues o).localQueue = [] ∧ L = [])
    (hq : ∀ p, (w'.queues p).localQueue = if p = o then L else (w.queues p).localQueue)
    (hf : w'.inFlight = w.inFlight) :
    (w'.held objs ++ (w.queues o).localQueue).Perm (w.held objs ++ L) := by
  unfold World.held
  rw [hf]
  rcases ho with ho | ⟨hlq, rfl⟩
  · have h := flatMap_perm_of_eq_off hnd ho (f := fun p => (w'.queues p).localQueue)
      (g := fun p => (w.queues p).localQueue) (fun p hp => by simp [hq, hp])
      (d := (w.queues o).localQueue) (e := L) (by simpa [hq] using List.perm_append_comm)
    exact (perm_append_swap_right _ _ _).trans ((h.append_right _).trans
      (perm_append_swap_right _ _ _))
  · have : objs.flatMap (fun p => (w'.queues p).localQueue) =
        objs.flatMap fun p => (w.queues p).localQueue :=
      List.flatMap_congr fun p _ => by by_cases hp : p = o <;> simp [hq, hp, hlq]
    rw [this, hlq]

theorem Tracks.localQueue_eq_nil (ht : Tracks objs w) {o : ℕ} (ho : o ∉ objs) :
    (w.queues o).localQueue = [] := by
  by_contra hne
  exact ho (ht.1 o hne)

/-- Rewriting one queue, `o`'s, changes the ledger by the new contents minus the replaced ones. -/
theorem items_perm_of_update (hnd : objs.Nodup) {o : ℕ} {L : List α}
    (ho : o ∈ objs ∨ (w.queues o).localQueue = [] ∧ L = [])
    (hq : ∀ p, (w'.queues p).localQueue = if p = o then L else (w.queues p).localQueue)
    (hf : w'.inFlight = w.inFlight) (hi : w'.invoked = w.invoked) :
    (w'.items objs ++ (w.queues o).localQueue).Perm (w.items objs ++ L) := by
  simpa only [World.items, hi, List.append_assoc] using
    (held_perm_of_update hnd ho hq hf).append_left (w.invoked.map Prod.snd)

theorem Tracks.update (ht : Tracks objs w) {o : ℕ} {L : List α} (ho : L ≠ [] → o ∈ objs)
    (hq : ∀ p, (w'.queues p).localQueue = if p = o then L else (w.queues p).localQueue)
    (hf : w'.inFlight = w.inFlight) : Tracks objs w' := by
  refine ⟨fun p hp => ?_, hf ▸ ht.2⟩
  rw [hq] at hp
  split_ifs at hp with hpo
  · exact hpo ▸ ho hp
  · exact ht.1 p hp

/-- Both moves: `dst` takes over the source's contents and drops its own. -/
theorem items_finishMove (hnd : objs.Nodup) (ht : Tracks objs w) {dst src : ℕ} (h : dst ≠ src)
    {q : WorkQueue α W} (hq : q.callbackRegistered = false) (hdst : dst ∈ objs)
    (hlq : q.localQueue = (w.queues src).localQueue) :
    Tracks objs (w.finishMove dst src q) ∧ (w.finishMove dst src q).invoked = w.invoked ∧
      ((w.finishMove dst src q).items objs ++ (w.queues dst).localQueue).Perm (w.items objs) := by
  classical
  obtain ⟨hd, hs, hother, -, -, hf, hi⟩ := finishMove_spec (w := w) h hq
  have hq' : ∀ p, ((w.finishMove dst src q).queues p).localQueue =
      if p = src then [] else ((w.setQueue dst q).queues p).localQueue := by
    intro p
    by_cases hps : p = src
    · simp [hps, hs]
    · by_cases hpd : p = dst
      · simp [hpd, hd, h]
      · simp [hps, hpd, hother p hpd hps]
  have hsrc : src ∈ objs ∨ ((w.setQueue dst q).queues src).localQueue = [] ∧ ([] : List α) = [] := by
    by_cases hso : src ∈ objs
    · exact .inl hso
    · exact .inr ⟨by simpa [Ne.symm h] using ht.localQueue_eq_nil hso, rfl⟩
  have h₁ : ((w.setQueue dst q).items objs ++ (w.queues dst).localQueue).Perm
      (w.items objs ++ q.localQueue) :=
    items_perm_of_update hnd (.inl hdst) (fun p => by by_cases hp : p = dst <;> simp [hp]) rfl rfl
  have h₂ := items_perm_of_update hnd hsrc hq' (by rw [hf]; rfl) (by rw [hi]; rfl)
  refine ⟨⟨fun p hp => ?_, hf ▸ ht.2⟩, hi, ?_⟩
  · by_cases hpd : p = dst
    · exact hpd ▸ hdst
    · rw [hq'] at hp
      split_ifs at hp
      · exact absurd rfl hp
      · exact ht.1 p (by simpa [hpd] using hp)
  · rw [List.perm_iff_count] at h₁ h₂ ⊢
    intro x
    have e₁ := h₁ x
    have e₂ := h₂ x
    simp only [List.count_append, List.count_nil, setQueue_queues, if_neg (Ne.symm h), hlq] at e₁ e₂ ⊢
    omega

/-- One action keeps `objs` tracking every item and only appends calls; what the work functions
received and what is left, with what the action dropped, are what there was and what it
brought in. -/
theorem act_items_perm (hnd : objs.Nodup) (ht : Tracks objs w) {a : Action α W}
    (htgt : ∀ o ∈ a.targets, o ∈ objs) (h : w.act P a = some w') :
    Tracks objs w' ∧ (∃ new, w'.invoked = w.invoked ++ new) ∧
      (w'.items objs ++ w.dropped a).Perm (w.items objs ++ a.added) := by
  classical
  have hbarrier : BarrierStep P w w' → Tracks objs w' ∧ (∃ new, w'.invoked = w.invoked ++ new) ∧
      (w'.items objs ++ []).Perm (w.items objs ++ []) := fun hb => by
    obtain ⟨ht', hnew, hperm⟩ := hb.held_perm P hnd ht
    exact ⟨ht', hnew, by simpa only [List.append_nil, World.items, List.append_assoc] using hperm⟩
  have hclear : ∀ o (q : WorkQueue α W), q.localQueue = [] →
      Tracks objs (w.setQueue o q) ∧ (∃ new, (w.setQueue o q).invoked = w.invoked ++ new) ∧
        ((w.setQueue o q).items objs ++ (w.queues o).localQueue).Perm (w.items objs ++ []) := by
    intro o q hq
    have hupd : ∀ p, ((w.setQueue o q).queues p).localQueue =
        if p = o then [] else (w.queues p).localQueue := fun p => by
      by_cases hp : p = o <;> simp [hp, hq]
    refine ⟨ht.update (fun h => absurd rfl h) hupd rfl, ⟨[], by simp⟩,
      items_perm_of_update hnd ?_ hupd rfl rfl⟩
    by_cases ho : o ∈ objs
    exacts [.inl ho, .inr ⟨ht.localQueue_eq_nil ho, rfl⟩]
  cases a with
  | construct o f => cases h; exact hclear o _ rfl
  | localClear o => cases h; exact hclear o _ rfl
  | localInsert o item =>
    cases h
    have ho : o ∈ objs := htgt o (List.mem_singleton_self o)
    have hupd : ∀ p, ((w.localInsert P o item).queues p).localQueue =
        if p = o then (w.queues o).localQueue ++ [item] else (w.queues p).localQueue :=
      fun p => localInsert_localQueue P w o p item
    refine ⟨ht.update (fun _ => ho) hupd (localInsert_inFlight P w o item), ⟨[], by simp⟩, ?_⟩
    have hp := items_perm_of_update hnd (.inl ho) hupd (localInsert_inFlight P w o item)
      (localInsert_invoked P w o item)
    rw [List.perm_iff_count] at hp ⊢
    intro x
    have e := hp x
    simp only [List.count_append, List.count_nil, World.dropped, Action.added] at e ⊢
    omega
  | send o item =>
    cases h
    refine ⟨⟨ht.1, ?_⟩, ⟨[], by simp [World.send]⟩, ?_⟩
    · simp only [World.send, List.mem_append, List.mem_singleton]
      rintro m (hm | rfl)
      exacts [ht.2 m hm, htgt o (List.mem_singleton_self o)]
    · simp [World.items, World.held, World.send, World.dropped, Action.added]
  | moveConstruct dst src =>
    simp only [act] at h
    split_ifs at h with hds
    cases h
    obtain ⟨ht', hi, hp⟩ := items_finishMove hnd ht hds (q := ⟨(w.queues src).localQueue,
      (w.queues src).workLambda, false⟩) rfl (htgt dst (List.mem_singleton_self dst)) rfl
    exact ⟨ht', ⟨[], by simpa [World.moveConstruct] using hi⟩,
      by simpa [World.moveConstruct, World.dropped, Action.added] using hp⟩
  | moveAssign dst src =>
    cases h
    by_cases hds : dst = src
    · subst hds
      simp only [World.moveAssign, if_true, World.dropped, Action.added]
      exact ⟨ht, ⟨[], (List.append_nil _).symm⟩, List.Perm.refl _⟩
    · obtain ⟨ht', hi, hp⟩ := items_finishMove hnd ht hds (q := { w.queues dst with
        localQueue := (w.queues src).localQueue, callbackRegistered := false }) rfl
        (htgt dst (List.mem_singleton_self dst)) rfl
      simp only [World.moveAssign, if_neg hds, World.dropped, Action.added, List.append_nil]
      exact ⟨ht', ⟨[], by simpa using hi⟩, hp⟩
  | deliver k =>
    simp only [act] at h
    split_ifs at h with hk
    cases h
    exact hbarrier (.deliver w _ _ _ (by rw [List.cons_getElem_drop_succ, List.take_append_drop]))
  | runCallback o =>
    simp only [act] at h
    split_ifs at h with ho
    cases h
    exact hbarrier (.runCallback w o ho)
  | processTop o =>
    simp only [act] at h
    split_ifs at h with hd he
    cases h
    exact hbarrier (.processTop w o hd _)
  | finishCallback o =>
    simp only [act] at h
    split_ifs at h with hd
    cases h
    exact hbarrier (.finishCallback w o hd.1 (by simpa using hd.2))

/-- A run of actions keeps the ledger: at every point, what the work functions received and
what is left, with everything dropped on the way, are what there was and what the run brought
in, each item once. -/
theorem run_items_perm (hnd : objs.Nodup) :
    ∀ (as : List (Action α W)) (w : World α W), Tracks objs w →
      (∀ a ∈ as, ∀ o ∈ a.targets, o ∈ objs) → w.run P as = some w' →
      Tracks objs w' ∧ (∃ new, w'.invoked = w.invoked ++ new) ∧
        (w'.items objs ++ w.droppedAlong P as).Perm (w.items objs ++ as.flatMap Action.added)
  | [], w, ht, _, h => by
    cases h
    exact ⟨ht, ⟨[], (List.append_nil _).symm⟩, by simp [World.droppedAlong]⟩
  | a :: as, w, ht, htgt, h => by
    classical
    obtain ⟨w₁, h₁, h₂⟩ := Option.bind_eq_some.mp h
    obtain ⟨ht₁, ⟨n₁, hn₁⟩, hp₁⟩ := act_items_perm hnd ht (htgt a (List.mem_cons_self _ _)) h₁
    obtain ⟨ht', ⟨n', hn'⟩, hp'⟩ := run_items_perm hnd as w₁ ht₁
      (fun b hb => htgt b (List.mem_cons_of_mem _ hb)) h₂
    refine ⟨ht', ⟨n₁ ++ n', by rw [hn', hn₁, List.append_assoc]⟩, ?_⟩
    simp only [World.droppedAlong, h₁, Option.map_some', Option.getD_some, List.flatMap_cons]
    rw [List.perm_iff_count] at hp₁ hp' ⊢
    intro x
    have e₁ := hp₁ x
    have e' := hp' x
    simp only [List.count_append] at e₁ e' ⊢
    omega

end Ledger

/-- No item is lost or passed twice, except by a clear or an overwrite: from the start, after
any run of operations that ends where the barrier has returned, the items the work functions
received, with the items `local_clear` discarded and a construction or a move overwrote, are
exactly the items inserted and sent, each once. -/
theorem run_invoked_perm (P : QueuePolicy α) (f : W) (as : List (Action α W)) {w : World α W}
    (h : (World.init f).run P as = some w) (hq : Quiescent w) :
    (w.invoked.map Prod.snd ++ (World.init f).droppedAlong P as).Perm
      (as.flatMap Action.added) := by
  classical
  have ht : Tracks (as.flatMap Action.targets).dedup (World.init f : World α W) :=
    ⟨fun o ho => by simp [World.init] at ho, by simp [World.init]⟩
  obtain ⟨-, -, hp⟩ := run_items_perm (List.nodup_dedup _) as _ ht
    (fun a ha o ho => List.mem_dedup.2 (List.mem_flatMap.2 ⟨a, ha, ho⟩)) h
  have hr : Reachable P f w := steps_of_run as _ h
  have hheld : w.held (as.flatMap Action.targets).dedup = [] := by
    simp [World.held, fun o => (hr.covered.quiescent hq o).1, hq.2.2]
  have hinit : (World.init f : World α W).items (as.flatMap Action.targets).dedup = [] := by
    simp [World.items, World.held, World.init]
  rwa [World.items, hheld, List.append_nil, hinit, List.nil_append] at hp

/-- Items 7 and 9 inserted and cleared, 5 inserted and 8 sent: the barrier passes 5 and 8 to the
work function, and 7 and 9 are what the clear dropped. -/
theorem run_invoked_perm_cleared :
    let acts : List (Action ℕ ℕ) := [.construct 0 1, .localInsert 0 7, .localInsert 0 9,
      .localClear 0, .localInsert 0 5, .send 0 8, .deliver 0, .runCallback 0, .processTop 0,
      .processTop 0, .finishCallback 0]
    ∃ w, (World.init 0 : World ℕ ℕ).run fifoPolicy acts = some w ∧ Quiescent w ∧
      (w.invoked.map Prod.snd ++ (World.init 0 : World ℕ ℕ).droppedAlong fifoPolicy acts).Perm
        (acts.flatMap Action.added) :=
  ⟨_, rfl, ⟨rfl, rfl, rfl⟩, run_invoked_perm fifoPolicy 0 _ rfl ⟨rfl, rfl, rfl⟩⟩

/-! ### The barrier, with what its work functions do -/

/-- What can happen while a barrier runs: its own actions (deliveries, callback runs, drain
iterations and their ends), and the `local_insert`s and sends of the work functions and the
message handlers it calls. -/
def Action.duringBarrier : Action α W → Bool
  | .localInsert _ _ => true
  | .send _ _ => true
  | .deliver _ => true
  | .runCallback _ => true
  | .processTop _ => true
  | .finishCallback _ => true
  | _ => false

/-- None of those drops an item. -/
theorem droppedAlong_eq_nil : ∀ (as : List (Action α W)) (w : World α W),
    (∀ a ∈ as, a.duringBarrier = true) → w.droppedAlong P as = []
  | [], _, _ => rfl
  | a :: as, w, has => by
    have hd : w.dropped a = [] := by
      have ha := has a (List.mem_cons_self _ _)
      cases a <;> first | rfl | cases ha
    have ih := fun w' => droppedAlong_eq_nil as w' fun b hb => has b (List.mem_cons_of_mem _ hb)
    rw [World.droppedAlong, hd, List.nil_append]
    cases w.act P a <;> simp only [Option.map_none', Option.map_some', Option.getD_none,
      Option.getD_some, ih]

/-- The barrier loses no item and passes none twice, also while its work functions and the
message handlers insert and send: from a reachable world, every run of the barrier's actions and
of those inserts and sends that ends where the barrier returns only appends calls of work
functions, and the items of those calls are, each once, the items queued in the objects `objs`
or in flight to them when it started, and the items inserted and sent while it ran. -/
theorem barrier_passes_each_once (P : QueuePolicy α) (f : W) {w w' : World α W}
    (hr : Reachable P f w) (as : List (Action α W)) (hbar : ∀ a ∈ as, a.duringBarrier = true)
    (h : w.run P as = some w') (hq : Quiescent w') (objs : List ℕ) (hnd : objs.Nodup)
    (ht : Tracks objs w) (htgt : ∀ a ∈ as, ∀ o ∈ a.targets, o ∈ objs) :
    ∃ new, w'.invoked = w.invoked ++ new ∧
      (new.map Prod.snd).Perm (w.held objs ++ as.flatMap Action.added) := by
  obtain ⟨-, ⟨new, hnew⟩, hp⟩ := run_items_perm hnd as w ht htgt h
  have hr' : Reachable P f w' := hr.trans (steps_of_run as w h)
  have hheld : w'.held objs = [] := by
    simp [World.held, fun o => (hr'.covered.quiescent hq o).1, hq.2.2]
  rw [droppedAlong_eq_nil as w hbar, List.append_nil, World.items, hheld, List.append_nil, hnew,
    World.items, List.map_append, List.append_assoc] at hp
  exact ⟨new, hnew, (List.perm_append_left_iff _).1 hp⟩

/-- Object 0 holds 7 and a message carries 8 to it; while the barrier drains, the work function
inserts 9: the barrier hands 7, 8 and 9 to the work function, each once. -/
theorem barrier_passes_each_once_inserting :
    let w : World ℕ ℕ := ((World.init 0).localInsert fifoPolicy 0 7).send 0 8
    let acts : List (Action ℕ ℕ) := [.deliver 0, .runCallback 0, .processTop 0,
      .localInsert 0 9, .processTop 0, .processTop 0, .finishCallback 0]
    Reachable fifoPolicy 0 w ∧ (∀ a ∈ acts, a.duringBarrier = true) ∧ Tracks [0] w ∧
      (∀ a ∈ acts, ∀ o ∈ a.targets, o ∈ [0]) ∧
      ∃ w', w.run fifoPolicy acts = some w' ∧ Quiescent w' ∧ w'.invoked.map Prod.snd = [7, 8, 9] ∧
        ∃ new, w'.invoked = w.invoked ++ new ∧
          (new.map Prod.snd).Perm (w.held [0] ++ acts.flatMap Action.added) := by
  intro w acts
  have hr : Reachable fifoPolicy 0 w := .tail (.single (.localInsert _ 0 7)) (.send _ 0 8)
  have ht : Tracks [0] w := ⟨fun o ho => by
    by_contra hne
    exact ho (by simp_all [w, World.send, World.localInsert, World.init, registerProcessingCallback]),
    by decide⟩
  exact ⟨hr, by decide, ht, by decide, _, rfl, ⟨rfl, rfl, rfl⟩, rfl,
    barrier_passes_each_once fifoPolicy 0 hr acts (by decide) rfl ⟨rfl, rfl, rfl⟩ [0] (by decide) ht
      (by decide)⟩

/-! ### First in, first out, per object -/

/-- The objects whose whole queue an action replaces: a construction's and a clear's object,
and both ends of a move. -/
def Action.replaces : Action α W → List ℕ
  | .construct o _ => [o]
  | .localClear o => [o]
  | .moveConstruct dst src => [dst, src]
  | .moveAssign dst src => [dst, src]
  | _ => []

/-- The item an action pushes onto `o`'s queue: an insert's, or the delivered message's. -/
def World.pushedTo (w : World α W) (o : ℕ) : Action α W → List α
  | .localInsert p item => if p = o then [item] else []
  | .deliver k =>
    match w.inFlight[k]? with
    | some m => if m.1 = o then [m.2] else []
    | none => []
  | _ => []

/-- The item an action takes off `o`'s queue for `o`'s work function. -/
def World.takenFrom (P : QueuePolicy α) (w : World α W) (o : ℕ) : Action α W → List α
  | .processTop p =>
    if h : p = o ∧ ¬(w.queues o).localQueue.isEmpty then [P.top _ (by simpa using h.2)] else []
  | _ => []

/-- What `g` records of each action of a run, each taken in the world it acts on. -/
def World.recordAlong {β : Type} (P : QueuePolicy α) (g : World α W → Action α W → List β) :
    List (Action α W) → World α W → List β
  | [], _ => []
  | a :: as, w => g w a ++ ((w.act P a).map fun w' => w'.recordAlong P g as).getD []

/-- One action that leaves `o`'s queue in place takes from its front what it takes and pushes
at its back what it pushes. -/
theorem act_fifo {o : ℕ} {a : Action α W} (ho : o ∉ a.replaces)
    (h : w.act fifoPolicy a = some w') :
    w.takenFrom fifoPolicy o a ++ (w'.queues o).localQueue =
      (w.queues o).localQueue ++ w.pushedTo o a := by
  cases a with
  | construct p f =>
    cases h
    have hop : o ≠ p := by simpa [Action.replaces] using ho
    simp [World.construct, World.takenFrom, World.pushedTo, hop]
  | localClear p =>
    cases h
    have hop : o ≠ p := by simpa [Action.replaces] using ho
    simp [World.localClear, World.takenFrom, World.pushedTo, hop]
  | localInsert p item =>
    cases h
    by_cases hp : p = o <;> simp [World.takenFrom, World.pushedTo, hp, eq_comm (a := o)]
  | moveConstruct dst src =>
    simp only [act] at h
    split_ifs at h with hds
    cases h
    simp only [Action.replaces, List.mem_cons, List.mem_singleton, not_or, List.not_mem_nil] at ho
    simp [World.moveConstruct, (finishMove_spec (q := ⟨_, _, false⟩) hds rfl).2.2.1 o ho.1 ho.2.1,
      World.takenFrom, World.pushedTo]
  | moveAssign dst src =>
    cases h
    simp only [Action.replaces, List.mem_cons, List.mem_singleton, not_or, List.not_mem_nil] at ho
    by_cases hds : dst = src
    · simp [World.moveAssign, hds, World.takenFrom, World.pushedTo]
    · simp [World.moveAssign, hds, (finishMove_spec (q := ⟨_, _, false⟩) hds rfl).2.2.1 o ho.1
        ho.2.1, World.takenFrom, World.pushedTo]
  | send p item => cases h; simp [World.send, World.takenFrom, World.pushedTo]
  | deliver k =>
    simp only [act] at h
    split_ifs at h with hk
    cases h
    by_cases hm : w.inFlight[k].1 = o <;>
      simp [World.deliver, World.takenFrom, World.pushedTo, List.getElem?_eq_getElem hk, hm,
        eq_comm (a := o)]
  | runCallback p =>
    simp only [act] at h
    split_ifs at h
    cases h
    simp [World.runCallback, World.takenFrom, World.pushedTo]
  | processTop p =>
    simp only [act] at h
    split_ifs at h with hd he
    cases h
    by_cases hp : p = o
    · subst hp
      simp [World.processTop, World.takenFrom, World.pushedTo, he, fifoPolicy]
    · simp [World.processTop, World.takenFrom, World.pushedTo, hp, Ne.symm hp]
  | finishCallback p =>
    simp only [act] at h
    split_ifs at h
    cases h
    by_cases hp : o = p <;> simp [World.finishCallback, World.takenFrom, World.pushedTo, hp]

/-- A FIFO object serves its items in the order they arrive, however inserts, messages and the
barrier's steps interleave: over any run that never constructs, clears or moves `o`, what the
drains took from `o`, followed by what `o` still holds, is what it held, followed by everything
pushed onto it, in order. -/
theorem run_fifo_in_arrival_order (o : ℕ) :
    ∀ (as : List (Action α W)) (w : World α W), (∀ a ∈ as, o ∉ a.replaces) →
      w.run fifoPolicy as = some w' →
      w.recordAlong fifoPolicy (fun v => v.takenFrom fifoPolicy o) as ++ (w'.queues o).localQueue =
        (w.queues o).localQueue ++ w.recordAlong fifoPolicy (fun v => v.pushedTo o) as
  | [], w, _, h => by cases h; simp [World.recordAlong]
  | a :: as, w, ho, h => by
    obtain ⟨w₁, h₁, h₂⟩ := Option.bind_eq_some.mp h
    have e₁ := act_fifo (ho a (List.mem_cons_self _ _)) h₁
    have e₂ := run_fifo_in_arrival_order o as w₁ (fun b hb => ho b (List.mem_cons_of_mem _ hb)) h₂
    simp only [World.recordAlong, h₁, Option.map_some', Option.getD_some]
    calc w.takenFrom fifoPolicy o a ++ _ ++ (w'.queues o).localQueue
        = w.takenFrom fifoPolicy o a ++ (w₁.queues o).localQueue ++ _ := by
          rw [List.append_assoc, e₂, List.append_assoc]
      _ = _ := by rw [e₁, List.append_assoc]

/-- Item 5 is inserted and 6 sent; the callback takes 5, its work function inserts 7, and the
message with 6 arrives in the middle of the drain: 5, 7 and 6 are taken in that order. -/
theorem run_fifo_in_arrival_order_mid_drain :
    let acts : List (Action ℕ ℕ) := [.localInsert 0 5, .send 0 6, .runCallback 0, .processTop 0,
      .localInsert 0 7, .deliver 0, .processTop 0, .processTop 0, .finishCallback 0]
    ∃ w, (World.init 0 : World ℕ ℕ).run fifoPolicy acts = some w ∧ (∀ a ∈ acts, 0 ∉ a.replaces) ∧
      (World.init 0 : World ℕ ℕ).recordAlong fifoPolicy (fun v => v.takenFrom fifoPolicy 0) acts =
        [5, 7, 6] ∧
      (World.init 0 : World ℕ ℕ).recordAlong fifoPolicy (fun v => v.takenFrom fifoPolicy 0) acts ++
          (w.queues 0).localQueue =
        ((World.init 0 : World ℕ ℕ).queues 0).localQueue ++
          (World.init 0 : World ℕ ℕ).recordAlong fifoPolicy (fun v => v.pushedTo 0) acts :=
  ⟨_, rfl, by decide, rfl, run_fifo_in_arrival_order 0 _ _ (by decide) rfl⟩

end Ygm
