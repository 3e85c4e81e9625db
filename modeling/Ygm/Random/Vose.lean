/-
Vose's alias table over one rank's items.

`build_local_alias_table` splits the items into light ones, lighter than the
average `avg`, and heavy ones.  While both vectors are non-empty it pops a light
`l` and a heavy `h` from their backs, emits the bucket `(l.weight, l.id, h.id)`
and lowers `h` by what the bucket took from it, `avg - l.weight`; `h` goes back
to the heavy vector if it is still heavy, and to the light one otherwise.  What
is left gets a full bucket `(avg, id, Item())`.

Two things are shown.  In exact arithmetic the construction is exact
(`VoseInv`): the pending items always weigh `avg` apiece on average, so the loop
can only stop with no light item left and every heavy item weighing exactly
`avg`; the buckets then give each id exactly its weight.  And whatever the
update computes (`aliasTableWith` leaves it open), every bucket is either a
split one with `p < avg` or a full one with `p = avg` and `Item()` in `b`, so the
sampler never returns that placeholder.

`sample_wrapper` is kept twice: `sampleBucket` is the choice it makes for a coin
`f`, and `bucketChance` its chance of handing over `x` once the bucket is drawn.
`bucketChance_of_sampleBucket` ties them: the coin's range `[0, avg)` splits into
the part where the choice is `a` and the part where it is `b`, and the chances
are the lengths of those parts over `avg`.

The vectors are modelled as lists whose head is the vector's `back()`.
-/
import Ygm.Random.Item
import Mathlib.Algebra.BigOperators.Ring.List

namespace Ygm

variable {α : Type}

/-- One rank's table: `m_local_alias_table` and `m_avg_weight`. -/
structure LocalAliasTable (α : Type) where
  buckets : List (TableItem α)
  avgWeight : ℚ

/-- The pairing loop `while (!light_items.empty() && !heavy_items.empty())`, for at most
`fuel` iterations; `upd h l` is the heavy item's new weight `(h.weight + l.weight) - avg`. -/
def pairItems (avg : ℚ) (upd : ℚ → ℚ → ℚ) :
    ℕ → List (Item α) → List (Item α) → List (TableItem α) →
      List (Item α) × List (Item α) × List (TableItem α)
  | 0, light, heavy, table => (light, heavy, table)
  | _ + 1, [], heavy, table => ([], heavy, table)
  | _ + 1, l :: light, [], table => (l :: light, [], table)
  | fuel + 1, l :: light, h :: heavy, table =>
    let h' : Item α := ⟨h.id, upd h.weight l.weight⟩
    let table := table ++ [⟨l.weight, l.id, h.id⟩]
    if h'.weight < avg then pairItems avg upd fuel (h' :: light) heavy table
    else pairItems avg upd fuel light (h' :: heavy) table

/-- The two drain loops: a full bucket `(avg_weight, id, Item())` for every item left, the
heavy vector first. -/
def drainItems [Inhabited α] (avg : ℚ) (heavy light : List (Item α)) : List (TableItem α) :=
  heavy.map (fun h => ⟨avg, h.id, default⟩) ++ light.map fun l => ⟨avg, l.id, default⟩

/-- `build_local_alias_table`'s buckets, for a given average and heavy-item update. -/
def aliasTableWith [Inhabited α] (avg : ℚ) (upd : ℚ → ℚ → ℚ) (items : List (Item α)) :
    List (TableItem α) :=
  let light := (items.filter fun itm => itm.weight < avg).reverse
  let heavy := (items.filter fun itm => ¬itm.weight < avg).reverse
  let paired := pairItems avg upd items.length light heavy []
  paired.2.2 ++ drainItems avg paired.2.1 paired.1

/-- `build_local_alias_table`. -/
def buildLocalAliasTable [Inhabited α] (items : List (Item α)) : LocalAliasTable α :=
  let avgWeight := localWeight items / items.length
  { buckets := aliasTableWith avgWeight (fun hw lw => (hw + lw) - avgWeight) items
    avgWeight := avgWeight }

/-- `sample_wrapper`'s choice in bucket `tblItm` with the coin `f`: `a`, unless `p < avg`
and `f > p`. -/
def sampleBucket (avgWeight : ℚ) (tblItm : TableItem α) (f : ℚ) : α :=
  if tblItm.p < avgWeight then (if f > tblItm.p then tblItm.b else tblItm.a) else tblItm.a

/-- The weight the buckets give `x`: `p` through `a`, and `avg - p` through `b` when `p < avg`. -/
def tableMass [DecidableEq α] (avg : ℚ) (buckets : List (TableItem α)) (x : α) : ℚ :=
  (buckets.map fun t =>
    (if t.a = x then t.p else 0) + if t.b = x ∧ t.p < avg then avg - t.p else 0).sum

/-- The chance that the coin `f`, uniform on `[0, avg)`, lands above `p`: the length of the
part of `[0, avg)` above `p`, over `avg`. -/
def coinAbove (avg p : ℚ) : ℚ := (avg - max 0 (min p avg)) / avg

/-- The chance that `sample_wrapper` hands `x` to the visitor once bucket `t` is drawn. -/
def bucketChance [DecidableEq α] (avg : ℚ) (t : TableItem α) (x : α) : ℚ :=
  if t.p < avg then
    (if t.b = x then coinAbove avg t.p else 0) + if t.a = x then 1 - coinAbove avg t.p else 0
  else if t.a = x then 1 else 0

/-- The chance of `x` on one rank, the bucket index uniform on `[0, n)`. -/
def tableChance [DecidableEq α] (tbl : LocalAliasTable α) (x : α) : ℚ :=
  (tbl.buckets.map fun t => bucketChance tbl.avgWeight t x).sum / tbl.buckets.length

/-! ### The pairing loop -/

section Pairing

variable {avg : ℚ} {upd : ℚ → ℚ → ℚ}

/-- What the light and the heavy branch of every iteration keep, the whole loop keeps. -/
theorem pairItems_induction
    (Q : List (Item α) → List (Item α) → List (TableItem α) → Prop)
    (hlight : ∀ l light h heavy table, upd h.weight l.weight < avg →
      Q (l :: light) (h :: heavy) table →
      Q (⟨h.id, upd h.weight l.weight⟩ :: light) heavy (table ++ [⟨l.weight, l.id, h.id⟩]))
    (hheavy : ∀ l light h heavy table, ¬upd h.weight l.weight < avg →
      Q (l :: light) (h :: heavy) table →
      Q light (⟨h.id, upd h.weight l.weight⟩ :: heavy) (table ++ [⟨l.weight, l.id, h.id⟩])) :
    ∀ fuel light heavy table, Q light heavy table →
      Q (pairItems avg upd fuel light heavy table).1 (pairItems avg upd fuel light heavy table).2.1
        (pairItems avg upd fuel light heavy table).2.2 := by
  intro fuel
  induction fuel with
  | zero => exact fun _ _ _ h => h
  | succ n ih =>
    intro light heavy table hq
    match light, heavy with
    | [], _ => exact hq
    | _ :: _, [] => exact hq
    | l :: light, h :: heavy =>
      simp only [pairItems]
      split
      · exact ih _ _ _ (hlight l light h heavy table ‹_› hq)
      · exact ih _ _ _ (hheavy l light h heavy table ‹_› hq)

/-- With a fuel of one per pending item the loop stops on its own condition. -/
theorem pairItems_stops :
    ∀ fuel (light heavy : List (Item α)) table, light.length + heavy.length ≤ fuel →
      (pairItems avg upd fuel light heavy table).1 = [] ∨
        (pairItems avg upd fuel light heavy table).2.1 = [] := by
  intro fuel
  induction fuel with
  | zero =>
    intro light heavy table h
    simp only [pairItems]
    left
    exact List.eq_nil_of_length_eq_zero (by omega)
  | succ n ih =>
    intro light heavy table hlen
    match light, heavy with
    | [], _ => exact .inl rfl
    | _ :: _, [] => exact .inr rfl
    | l :: light, h :: heavy =>
      simp only [pairItems, List.length_cons] at hlen ⊢
      split
      · exact ih _ _ _ (by simp only [List.length_cons]; omega)
      · exact ih _ _ _ (by simp only [List.length_cons]; omega)

theorem partition_perm (avg : ℚ) (items : List (Item α)) :
    ((items.filter fun itm => itm.weight < avg).reverse ++
      (items.filter fun itm => ¬itm.weight < avg).reverse).Perm items :=
  ((List.reverse_perm _).append (List.reverse_perm _)).trans
    (by simpa only [decide_not] using
      List.filter_append_perm (fun itm : Item α => decide (itm.weight < avg)) items)

end Pairing

/-! ### Which ids the buckets hold, whatever the update computes -/

/-- Pending light items are below `avg`, and every id pending or in a bucket is an input id. -/
structure IdsInv (avg : ℚ) (ids : List α) (light heavy : List (Item α))
    (table : List (TableItem α)) : Prop where
  light_lt : ∀ l ∈ light, l.weight < avg ∧ l.id ∈ ids
  heavy_id : ∀ h ∈ heavy, h.id ∈ ids
  split : ∀ t ∈ table, t.p < avg ∧ t.a ∈ ids ∧ t.b ∈ ids

section Ids

variable {avg : ℚ} {upd : ℚ → ℚ → ℚ} {ids : List α}

theorem idsInv_pairItems (upd : ℚ → ℚ → ℚ) (fuel : ℕ) {light heavy : List (Item α)} {table : List (TableItem α)}
    (h : IdsInv avg ids light heavy table) :
    IdsInv avg ids (pairItems avg upd fuel light heavy table).1
      (pairItems avg upd fuel light heavy table).2.1 (pairItems avg upd fuel light heavy table).2.2 := by
  refine pairItems_induction (IdsInv avg ids) ?_ ?_ fuel light heavy table h
  · intro l light h heavy table hlt hi
    refine ⟨?_, fun x hx => hi.heavy_id x (List.mem_cons_of_mem _ hx), ?_⟩
    · simp only [List.mem_cons, forall_eq_or_imp]
      exact ⟨⟨hlt, hi.heavy_id h (List.mem_cons_self _ _)⟩,
        fun x hx => hi.light_lt x (List.mem_cons_of_mem _ hx)⟩
    · simp only [List.mem_append, List.mem_singleton]
      rintro t (ht | rfl)
      · exact hi.split t ht
      · exact ⟨(hi.light_lt l (List.mem_cons_self _ _)).1,
          (hi.light_lt l (List.mem_cons_self _ _)).2, hi.heavy_id h (List.mem_cons_self _ _)⟩
  · intro l light h heavy table _ hi
    refine ⟨fun x hx => hi.light_lt x (List.mem_cons_of_mem _ hx), ?_, ?_⟩
    · simp only [List.mem_cons, forall_eq_or_imp]
      exact ⟨hi.heavy_id h (List.mem_cons_self _ _),
        fun x hx => hi.heavy_id x (List.mem_cons_of_mem _ hx)⟩
    · simp only [List.mem_append, List.mem_singleton]
      rintro t (ht | rfl)
      · exact hi.split t ht
      · exact ⟨(hi.light_lt l (List.mem_cons_self _ _)).1,
          (hi.light_lt l (List.mem_cons_self _ _)).2, hi.heavy_id h (List.mem_cons_self _ _)⟩

/-- Every bucket is a split one, `p < avg` between two input ids, or a full one, `p = avg`
with an input id in `a` and `Item()` in `b`. -/
theorem aliasTableWith_shape [Inhabited α] (items : List (Item α)) :
    ∀ t ∈ aliasTableWith avg upd items,
      (t.p < avg ∧ t.a ∈ items.map Item.id ∧ t.b ∈ items.map Item.id) ∨
        (t.p = avg ∧ t.a ∈ items.map Item.id ∧ t.b = default) := by
  have h0 : IdsInv avg (items.map Item.id) (items.filter fun itm => itm.weight < avg).reverse
      (items.filter fun itm => ¬itm.weight < avg).reverse [] := by
    refine ⟨fun l hl => ?_, fun h hh => ?_, by simp⟩
    · simp only [List.mem_reverse, List.mem_filter, decide_eq_true_eq] at hl
      exact ⟨hl.2, List.mem_map_of_mem _ hl.1⟩
    · simp only [List.mem_reverse, List.mem_filter] at hh
      exact List.mem_map_of_mem _ hh.1
  have hi := idsInv_pairItems upd items.length h0
  intro t ht
  simp only [aliasTableWith, drainItems, List.mem_append] at ht
  rcases ht with ht | ht | ht
  · exact .inl (hi.split t ht)
  · obtain ⟨h, hh, rfl⟩ := List.mem_map.mp ht
    exact .inr ⟨rfl, hi.heavy_id h hh, rfl⟩
  · obtain ⟨l, hl, rfl⟩ := List.mem_map.mp ht
    exact .inr ⟨rfl, (hi.light_lt l hl).2, rfl⟩

end Ids

/-- Whatever values the heavy item's update and the average take, `sample_wrapper` hands the
visitor an input id, and never the `b` slot of a full bucket: every bucket is split, with
`p < avg` and input ids in `a` and `b`, or full, with `p = avg`, an input id in `a` and
`Item()` in `b`, and a full bucket always yields its `a`. -/
theorem aliasTableWith_no_placeholder [Inhabited α] (items : List (Item α)) (avg : ℚ)
    (upd : ℚ → ℚ → ℚ) :
    (∀ t ∈ aliasTableWith avg upd items,
        (t.p < avg ∧ t.a ∈ items.map Item.id ∧ t.b ∈ items.map Item.id) ∨
          (t.p = avg ∧ t.a ∈ items.map Item.id ∧ t.b = default)) ∧
      ∀ t ∈ aliasTableWith avg upd items, ∀ f : ℚ,
        sampleBucket avg t f ∈ items.map Item.id ∧ (t.p = avg → sampleBucket avg t f = t.a) := by
  refine ⟨aliasTableWith_shape items, fun t ht f => ?_⟩
  rcases aliasTableWith_shape items t ht with ⟨hp, ha, hb⟩ | ⟨hp, ha, -⟩
  · refine ⟨?_, fun h => absurd h hp.ne⟩
    unfold sampleBucket
    split_ifs <;> assumption
  · simp [sampleBucket, hp, ha]

/-! ### Exact arithmetic: the buckets give every id its weight -/

section Mass

variable [DecidableEq α]

@[simp] theorem tableMass_nil (avg : ℚ) (x : α) : tableMass avg ([] : List (TableItem α)) x = 0 :=
  rfl

@[simp] theorem tableMass_append (avg : ℚ) (b₁ b₂ : List (TableItem α)) (x : α) :
    tableMass avg (b₁ ++ b₂) x = tableMass avg b₁ x + tableMass avg b₂ x := by
  simp [tableMass]

@[simp] theorem tableMass_cons (avg : ℚ) (t : TableItem α) (b : List (TableItem α)) (x : α) :
    tableMass avg (t :: b) x =
      (if t.a = x then t.p else 0) + (if t.b = x ∧ t.p < avg then avg - t.p else 0) +
        tableMass avg b x := by
  simp [tableMass]

/-- The pairing loop's invariant in exact arithmetic, for the input `items`. -/
structure VoseInv (avg : ℚ) (items light heavy : List (Item α)) (table : List (TableItem α)) :
    Prop where
  light_bounds : ∀ l ∈ light, 0 ≤ l.weight ∧ l.weight < avg
  heavy_ge : ∀ h ∈ heavy, avg ≤ h.weight
  /-- The pending items weigh `avg` apiece on average. -/
  balanced : localWeight light + localWeight heavy = avg * (light.length + heavy.length)
  /-- Buckets and pending items together give every id its input weight. -/
  mass : ∀ x, tableMass avg table x + massOf x light + massOf x heavy = massOf x items
  count : table.length + light.length + heavy.length = items.length
  bounds : ∀ t ∈ table, 0 ≤ t.p ∧ t.p < avg

variable {avg : ℚ} {items light heavy : List (Item α)} {table : List (TableItem α)}
  {l h : Item α}

/-- One pairing, wherever `h` goes next: the bucket takes `l` and tops it up from `h`, and `h`
keeps the rest, `h.weight + l.weight - avg`. -/
theorem VoseInv.pair (hi : VoseInv avg items (l :: light) (h :: heavy) table) :
    (∀ x, tableMass avg (table ++ [⟨l.weight, l.id, h.id⟩]) x + massOf x light + massOf x heavy +
      (if h.id = x then h.weight + l.weight - avg else 0) = massOf x items) ∧
    localWeight light + localWeight heavy + (h.weight + l.weight - avg) =
      avg * (light.length + heavy.length + 1) ∧
    ∀ t ∈ table ++ [⟨l.weight, l.id, h.id⟩], 0 ≤ t.p ∧ t.p < avg := by
  have hl := hi.light_bounds l (List.mem_cons_self _ _)
  have hb := hi.balanced
  refine ⟨fun x => ?_, ?_, ?_⟩
  · have hm := hi.mass x
    simp only [tableMass_append, tableMass_cons, tableMass_nil, massOf_cons, hl.2, and_true] at hm ⊢
    by_cases hx : h.id = x <;> simp only [hx, if_true, if_false] at hm ⊢ <;> linarith only [hm]
  · simp only [localWeight_cons, List.length_cons] at hb
    push_cast at hb
    linarith only [hb]
  · simp only [List.mem_append, List.mem_singleton]
    rintro t (ht | rfl)
    exacts [hi.bounds t ht, hl]

/-- `h` turns light: it joins the light vector with what the bucket left of it. -/
theorem VoseInv.light_step (hi : VoseInv avg items (l :: light) (h :: heavy) table)
    (hlt : h.weight + l.weight - avg < avg) :
    VoseInv avg items (⟨h.id, h.weight + l.weight - avg⟩ :: light) heavy
      (table ++ [⟨l.weight, l.id, h.id⟩]) := by
  obtain ⟨hm, hb, hp⟩ := hi.pair
  have hc := hi.count
  have hl := hi.light_bounds l (List.mem_cons_self _ _)
  have hh := hi.heavy_ge h (List.mem_cons_self _ _)
  refine ⟨?_, fun x hx => hi.heavy_ge x (List.mem_cons_of_mem _ hx), ?_, fun x => ?_, ?_, hp⟩
  · simp only [List.mem_cons, forall_eq_or_imp]
    exact ⟨⟨by linarith only [hh, hl.1], hlt⟩, fun x hx => hi.light_bounds x (List.mem_cons_of_mem _ hx)⟩
  · simp only [localWeight_cons, List.length_cons]
    push_cast
    linarith only [hb]
  · rw [massOf_cons, ← hm x]
    ring
  · simp only [List.length_append, List.length_cons, List.length_nil] at hc ⊢
    omega

/-- `h` stays heavy, lowered by what the bucket took from it. -/
theorem VoseInv.heavy_step (hi : VoseInv avg items (l :: light) (h :: heavy) table)
    (hge : ¬h.weight + l.weight - avg < avg) :
    VoseInv avg items light (⟨h.id, h.weight + l.weight - avg⟩ :: heavy)
      (table ++ [⟨l.weight, l.id, h.id⟩]) := by
  obtain ⟨hm, hb, hp⟩ := hi.pair
  have hc := hi.count
  refine ⟨fun x hx => hi.light_bounds x (List.mem_cons_of_mem _ hx), ?_, ?_, fun x => ?_, ?_, hp⟩
  · simp only [List.mem_cons, forall_eq_or_imp]
    exact ⟨not_lt.mp hge, fun x hx => hi.heavy_ge x (List.mem_cons_of_mem _ hx)⟩
  · simp only [localWeight_cons, List.length_cons]
    push_cast
    linarith only [hb]
  · rw [massOf_cons, ← hm x]
    ring
  · simp only [List.length_append, List.length_cons, List.length_nil] at hc ⊢
    omega

theorem voseInv_pairItems (fuel : ℕ) (hi : VoseInv avg items light heavy table) :
    VoseInv avg items (pairItems avg (fun hw lw => (hw + lw) - avg) fuel light heavy table).1
      (pairItems avg (fun hw lw => (hw + lw) - avg) fuel light heavy table).2.1
      (pairItems avg (fun hw lw => (hw + lw) - avg) fuel light heavy table).2.2 := by
  refine pairItems_induction (VoseInv avg items) ?_ ?_ fuel light heavy table hi
  exacts [fun _ _ _ _ _ hlt hi => hi.light_step hlt, fun _ _ _ _ _ hge hi => hi.heavy_step hge]

/-- When the loop stops, no light item is left and every heavy one weighs exactly `avg`. -/
theorem VoseInv.stopped (hi : VoseInv avg items light heavy table)
    (hstop : light = [] ∨ heavy = []) : light = [] ∧ ∀ h ∈ heavy, h.weight = avg := by
  have hb := hi.balanced
  have hlight : light = [] := by
    rcases hstop with hl | rfl
    · exact hl
    · by_contra hne
      obtain ⟨x, rest, rfl⟩ := List.exists_cons_of_ne_nil hne
      have hx := (hi.light_bounds x (List.mem_cons_self _ _)).2
      have hrest := localWeight_le_mul fun y hy =>
        le_of_lt (hi.light_bounds y (List.mem_cons_of_mem _ hy)).2
      simp only [localWeight_cons, localWeight_nil, List.length_cons, List.length_nil] at hb
      push_cast at hb
      linarith
  subst hlight
  simp only [localWeight_nil, zero_add, List.length_nil, Nat.cast_zero] at hb
  exact ⟨rfl, weight_eq_of_localWeight_eq hi.heavy_ge hb⟩

/-- The partition starts the invariant, with `avg` the items' average; a non-empty input is all
it needs, even one that weighs nothing. -/
theorem voseInv_init_of_ne_nil (hw : ∀ itm ∈ items, 0 ≤ itm.weight) (hne : items ≠ []) :
    VoseInv (localWeight items / items.length) items
      (items.filter fun itm => itm.weight < localWeight items / items.length).reverse
      (items.filter fun itm => ¬itm.weight < localWeight items / items.length).reverse [] := by
  have hperm := partition_perm (localWeight items / items.length) items
  have hn : (items.length : ℚ) ≠ 0 := by exact_mod_cast (List.length_pos.mpr hne).ne'
  refine ⟨fun l hl => ?_, fun h hh => ?_, ?_, fun x => ?_, ?_, by simp⟩
  · simp only [List.mem_reverse, List.mem_filter, decide_eq_true_eq] at hl
    exact ⟨hw l hl.1, hl.2⟩
  · simp only [List.mem_reverse, List.mem_filter, decide_eq_true_eq] at hh
    exact not_lt.mp hh.2
  · rw [← localWeight_append, localWeight_perm hperm, ← Nat.cast_add, ← List.length_append,
      hperm.length_eq]
    field_simp
  · rw [tableMass_nil, zero_add, ← massOf_append, massOf_perm x hperm]
  · rw [List.length_nil, zero_add, ← List.length_append, hperm.length_eq]

/-- The partition starts the invariant, with `avg` the items' average. -/
theorem voseInv_init (hw : ∀ itm ∈ items, 0 ≤ itm.weight) (hpos : 0 < localWeight items) :
    VoseInv (localWeight items / items.length) items
      (items.filter fun itm => itm.weight < localWeight items / items.length).reverse
      (items.filter fun itm => ¬itm.weight < localWeight items / items.length).reverse [] :=
  voseInv_init_of_ne_nil hw (ne_nil_of_localWeight_pos hpos)

/-- Full buckets over items that weigh `avg` each give every id its weight. -/
theorem tableMass_full [Inhabited α] (avg : ℚ) (heavy : List (Item α))
    (h : ∀ y ∈ heavy, y.weight = avg) (x : α) :
    tableMass avg (heavy.map fun h => ⟨avg, h.id, default⟩) x = massOf x heavy := by
  induction heavy with
  | nil => rfl
  | cons y rest ih =>
    simp only [List.mem_cons, forall_eq_or_imp] at h
    simp [ih h.2, h.1]

/-- `build_local_alias_table` in exact arithmetic: one bucket per item, every `p` in
`[0, avg]`, and every id given exactly its weight. -/
theorem buildLocalAliasTable_spec [Inhabited α] (hw : ∀ itm ∈ items, 0 ≤ itm.weight)
    (hpos : 0 < localWeight items) :
    (buildLocalAliasTable items).buckets.length = items.length ∧
      (∀ t ∈ (buildLocalAliasTable items).buckets,
        0 ≤ t.p ∧ t.p ≤ (buildLocalAliasTable items).avgWeight) ∧
      ∀ x, tableMass (buildLocalAliasTable items).avgWeight (buildLocalAliasTable items).buckets x =
        massOf x items := by
  have h0 := voseInv_init hw hpos
  have hlen := (partition_perm (localWeight items / items.length) items).length_eq
  rw [List.length_append] at hlen
  have hf := voseInv_pairItems items.length h0
  have hstop := hf.stopped (pairItems_stops _ _ _ [] hlen.le)
  have havg : 0 ≤ localWeight items / items.length := div_nonneg hpos.le (Nat.cast_nonneg _)
  simp only [buildLocalAliasTable, aliasTableWith, drainItems, hstop.1, List.map_nil,
    List.append_nil]
  refine ⟨?_, ?_, fun x => ?_⟩
  · have := hf.count
    rw [hstop.1, List.length_nil, add_zero] at this
    simpa using this
  · simp only [List.mem_append, List.mem_map]
    rintro t (ht | ⟨h, -, rfl⟩)
    · exact ⟨(hf.bounds t ht).1, (hf.bounds t ht).2.le⟩
    · exact ⟨havg, le_rfl⟩
  · have hm := hf.mass x
    rw [hstop.1, massOf_nil, add_zero] at hm
    rw [tableMass_append, ← hm]
    congr 1
    exact tableMass_full _ _ hstop.2 x

/-! ### The sampler's chances on one rank -/

/-- `bucketChance` is the law of `sampleBucket`'s choice under a coin uniform on `[0, avg)`:
that range splits at `cut = max 0 (min p avg)` into `[0, cut]`, where the choice is `a`, and
`(cut, avg)`, where it is `b`, and `bucketChance` gives `a` and `b` the lengths of their parts
over `avg`. -/
theorem bucketChance_of_sampleBucket {avg : ℚ} (havg : 0 < avg) {t : TableItem α} (hp : 0 ≤ t.p)
    (x : α) :
    (∀ f, 0 ≤ f → f < avg →
      sampleBucket avg t f = if max 0 (min t.p avg) < f then t.b else t.a) ∧
    bucketChance avg t x =
      ((if t.b = x then avg - max 0 (min t.p avg) else 0) +
        if t.a = x then max 0 (min t.p avg) else 0) / avg := by
  by_cases hlt : t.p < avg
  · rw [min_eq_left hlt.le, max_eq_right hp]
    refine ⟨fun f _ _ => by simp only [sampleBucket, hlt, if_true, gt_iff_lt], ?_⟩
    have hcoin : 1 - (avg - t.p) / avg = t.p / avg := by
      rw [sub_div, div_self havg.ne', sub_sub_cancel]
    simp only [bucketChance, coinAbove, hlt, if_true, min_eq_left hlt.le, max_eq_right hp, hcoin]
    split_ifs <;> ring
  · have hle : avg ≤ t.p := not_lt.mp hlt
    rw [min_eq_right hle, max_eq_right havg.le]
    refine ⟨fun f _ hf => by simp [sampleBucket, hlt, not_lt.mpr hf.le], ?_⟩
    simp only [bucketChance, hlt, if_false, sub_self]
    split_ifs <;> simp [havg.ne']

/-- Once `p` lies in `[0, avg]`, bucket `t` gives `x` its bucket weight for `x` over `avg`. -/
theorem bucketChance_eq {avg : ℚ} (havg : 0 < avg) {t : TableItem α} (hp : 0 ≤ t.p ∧ t.p ≤ avg)
    (x : α) :
    bucketChance avg t x =
      ((if t.a = x then t.p else 0) + if t.b = x ∧ t.p < avg then avg - t.p else 0) / avg := by
  unfold bucketChance coinAbove
  by_cases hlt : t.p < avg
  · rw [min_eq_left hlt.le, max_eq_right hp.1]
    simp only [hlt, if_true, and_true]
    split_ifs <;> field_simp
  · have hpa : t.p = avg := le_antisymm hp.2 (not_lt.mp hlt)
    simp only [hlt, if_false, and_false, add_zero]
    split_ifs <;> simp [hpa, havg.ne']

theorem tableChance_eq {tbl : LocalAliasTable α} (havg : 0 < tbl.avgWeight)
    (hp : ∀ t ∈ tbl.buckets, 0 ≤ t.p ∧ t.p ≤ tbl.avgWeight) (x : α) :
    tableChance tbl x =
      tableMass tbl.avgWeight tbl.buckets x / (tbl.avgWeight * tbl.buckets.length) := by
  unfold tableChance tableMass
  rw [List.map_congr_left fun t ht => bucketChance_eq havg (hp t ht) x]
  simp only [div_eq_mul_inv, List.sum_map_mul_right, mul_inv, mul_assoc]

/-- On one rank, a uniform bucket and the coin draw `x` with its share of the rank's weight. -/
theorem tableChance_buildLocalAliasTable [Inhabited α] (hw : ∀ itm ∈ items, 0 ≤ itm.weight)
    (hpos : 0 < localWeight items) (x : α) :
    tableChance (buildLocalAliasTable items) x = massOf x items / localWeight items := by
  obtain ⟨hlen, hp, hm⟩ := buildLocalAliasTable_spec hw hpos
  have hn : (0 : ℚ) < items.length := by
    exact_mod_cast List.length_pos.mpr (ne_nil_of_localWeight_pos hpos)
  rw [tableChance_eq (div_pos hpos hn) hp, hm, hlen]
  simp only [buildLocalAliasTable]
  field_simp

end Mass

/-! ### The pairing loop as it runs -/

/-- The pairing loop's invariant at every iteration, for a non-empty input with weights `≥ 0`:
the pending items weigh `avg` apiece on average, none weighs less than nothing, the light ones
lie below `avg` and the heavy ones at or above it.  So wherever the loop stops no light item is
left and every heavy one weighs exactly `avg`: the light drain never runs, and each bucket of
the heavy drain carries, as `p = avg`, exactly that item's remaining weight. -/
theorem pairItems_balanced [Inhabited α] (items : List (Item α)) (hne : items ≠ [])
    (hw : ∀ itm ∈ items, 0 ≤ itm.weight) :
    let avg := localWeight items / items.length
    let run := fun k => pairItems avg (fun hw lw => (hw + lw) - avg) k
      (items.filter fun itm => itm.weight < avg).reverse
      (items.filter fun itm => ¬itm.weight < avg).reverse []
    (∀ k, localWeight (run k).1 + localWeight (run k).2.1 =
          avg * ((run k).1.length + (run k).2.1.length) ∧
        (∀ l ∈ (run k).1, 0 ≤ l.weight ∧ l.weight < avg) ∧
        ∀ h ∈ (run k).2.1, 0 ≤ h.weight ∧ avg ≤ h.weight) ∧
    (∀ k, (run k).1 = [] ∨ (run k).2.1 = [] →
      (run k).1 = [] ∧ ∀ h ∈ (run k).2.1, h.weight = avg) ∧
    (buildLocalAliasTable items).buckets =
      (run items.length).2.2 ++ (run items.length).2.1.map fun h => ⟨h.weight, h.id, default⟩ := by
  intro avg run
  classical
  have havg : 0 ≤ avg := div_nonneg (localWeight_nonneg hw) (Nat.cast_nonneg _)
  have hinv : ∀ k, VoseInv avg items (run k).1 (run k).2.1 (run k).2.2 :=
    fun k => voseInv_pairItems k (voseInv_init_of_ne_nil hw hne)
  refine ⟨fun k => ⟨(hinv k).balanced, (hinv k).light_bounds, fun h hh =>
    ⟨havg.trans ((hinv k).heavy_ge h hh), (hinv k).heavy_ge h hh⟩⟩,
    fun k hk => (hinv k).stopped hk, ?_⟩
  have hlen := (partition_perm avg items).length_eq
  rw [List.length_append] at hlen
  obtain ⟨hl, hh⟩ := (hinv items.length).stopped (pairItems_stops _ _ _ [] hlen.le)
  show (run items.length).2.2 ++ drainItems avg (run items.length).2.1 (run items.length).1 = _
  rw [hl, drainItems, List.map_nil, List.append_nil]
  exact congrArg _ (List.map_congr_left fun h hm => by rw [hh h hm])

/-- Weights 1 and 3 around the average 2: one pairing leaves the heavy item at exactly 2. -/
theorem pairItems_balanced_pair :
    let items := [(⟨0, 1⟩ : Item ℕ), ⟨1, 3⟩]
    items ≠ [] ∧ (∀ itm ∈ items, 0 ≤ itm.weight) ∧
    let avg := localWeight items / items.length
    let run := fun k => pairItems avg (fun hw lw => (hw + lw) - avg) k
      (items.filter fun itm => itm.weight < avg).reverse
      (items.filter fun itm => ¬itm.weight < avg).reverse []
    (∀ k, localWeight (run k).1 + localWeight (run k).2.1 =
          avg * ((run k).1.length + (run k).2.1.length) ∧
        (∀ l ∈ (run k).1, 0 ≤ l.weight ∧ l.weight < avg) ∧
        ∀ h ∈ (run k).2.1, 0 ≤ h.weight ∧ avg ≤ h.weight) ∧
    (∀ k, (run k).1 = [] ∨ (run k).2.1 = [] →
      (run k).1 = [] ∧ ∀ h ∈ (run k).2.1, h.weight = avg) ∧
    (buildLocalAliasTable items).buckets =
      (run items.length).2.2 ++ (run items.length).2.1.map fun h => ⟨h.weight, h.id, default⟩ := by
  intro items
  have hw : ∀ itm ∈ items, 0 ≤ itm.weight := by simp [items]
  exact ⟨List.cons_ne_nil _ _, hw, pairItems_balanced items (List.cons_ne_nil _ _) hw⟩

/-- Vose's construction is exact: for a list of items with weights `≥ 0` and a positive total,
`build_local_alias_table` emits one bucket per item, each with `0 ≤ p ≤ avg` where
`avg = total / n`, and gives every id `x` exactly its weight, so a uniform bucket followed by
`sample_wrapper`'s coin yields `x` with probability (weight of `x`) / total. -/
theorem buildLocalAliasTable_exact [Inhabited α] [DecidableEq α] (items : List (Item α))
    (hw : ∀ itm ∈ items, 0 ≤ itm.weight) (hpos : 0 < localWeight items) :
    (buildLocalAliasTable items).avgWeight = localWeight items / items.length ∧
      (buildLocalAliasTable items).buckets.length = items.length ∧
      (∀ t ∈ (buildLocalAliasTable items).buckets,
        0 ≤ t.p ∧ t.p ≤ (buildLocalAliasTable items).avgWeight) ∧
      ∀ x, tableMass (buildLocalAliasTable items).avgWeight (buildLocalAliasTable items).buckets x =
          massOf x items ∧
        tableChance (buildLocalAliasTable items) x = massOf x items / localWeight items :=
  have hspec := buildLocalAliasTable_spec hw hpos
  ⟨rfl, hspec.1, hspec.2.1, fun x => ⟨hspec.2.2 x, tableChance_buildLocalAliasTable hw hpos x⟩⟩

/-- Weights 1 and 3 around the average 2: the light item is paired with the heavy one, which
then fills a bucket of its own. -/
theorem buildLocalAliasTable_exact_pair :
    let items : List (Item ℕ) := [⟨0, 1⟩, ⟨1, 3⟩]
    let tbl := buildLocalAliasTable items
    (∀ itm ∈ items, 0 ≤ itm.weight) ∧ 0 < localWeight items ∧
      tbl.avgWeight = localWeight items / items.length ∧ tbl.buckets.length = items.length ∧
      (∀ t ∈ tbl.buckets, 0 ≤ t.p ∧ t.p ≤ tbl.avgWeight) ∧
      ∀ x, tableMass tbl.avgWeight tbl.buckets x = massOf x items ∧
        tableChance tbl x = massOf x items / localWeight items := by
  intro items tbl
  have hw : ∀ itm ∈ items, 0 ≤ itm.weight := by simp [items]
  have hpos : 0 < localWeight items := by simp [items]; norm_num
  exact ⟨hw, hpos, buildLocalAliasTable_exact items hw hpos⟩

end Ygm
