import TronGoblin.Node.FetchPool

/-!
# No block is lost in the fetch pool

* `Placed`: every known id is in exactly one of the wanted, claimed and fetched collections.
* `placed_step`: every clear call keeps it; `pool_keeps` is the result for whole runs.
* `rivals_lost`: two ids of one number can push each other out.
* `claimable_iff`: when `claimable_within` says what `claim` would do.
-/

namespace TronGoblin

open Assoc List

namespace FetchPoolInner

open Assoc (Table IterOrder)
open History (after Each)

variable {p q : FetchPoolInner} {id id' : BlockId} {n : Int}

/-! ## Where ids are -/

/-- The id is in exactly one of the three collections, under this number. -/
def Located (p : FetchPoolInner) (id : BlockId) (n : Int) : Prop :=
  (p.want.lookup n = some id ∧ p.inflight.lookup id = none ∧ p.ready.lookup id = none) ∨
  (p.want.lookup n ≠ some id ∧ (p.inflight.lookup id).map (·.num) = some n ∧ p.ready.lookup id = none) ∨
  (p.want.lookup n ≠ some id ∧ p.inflight.lookup id = none ∧ (p.ready.lookup id).isSome = true)

def Held (p : FetchPoolInner) (id : BlockId) : Prop :=
  (∃ n, p.want.lookup n = some id) ∨ (p.inflight.lookup id).isSome = true ∨ (p.ready.lookup id).isSome = true

/-- Every known id is in one place, and nothing else is in the pool. -/
structure Placed (p : FetchPoolInner) : Prop where
  located : ∀ {id n}, p.numOf.lookup id = some n → p.Located id n
  wanted : ∀ {id n}, p.want.lookup n = some id → p.numOf.lookup id = some n
  claimed : ∀ {id f}, p.inflight.lookup id = some f → p.numOf.lookup id = some f.num
  fetched : ∀ {id}, (p.ready.lookup id).isSome = true → (p.numOf.lookup id).isSome = true
  seen : ∀ {id n}, p.numOf.lookup id = some n → id ∈ p.seen

theorem placed_new : new.Placed := by
  constructor <;> intros <;> rename_i h <;> cases h

theorem Placed.known (hp : p.Placed) (h : p.Held id) : ∃ n, p.numOf.lookup id = some n := by
  rcases h with ⟨n, h⟩ | h | h
  · exact ⟨n, hp.wanted h⟩
  · obtain ⟨f, hf⟩ := Option.isSome_iff_exists.1 h
    exact ⟨f.num, hp.claimed hf⟩
  · exact Option.isSome_iff_exists.1 (hp.fetched h)

theorem Placed.held (hp : p.Placed) (h : p.numOf.lookup id = some n) : p.Held id := by
  rcases hp.located h with ⟨h, -⟩ | ⟨-, h, -⟩ | ⟨-, -, h⟩
  · exact .inl ⟨n, h⟩
  · obtain ⟨f, hf, -⟩ := Option.map_eq_some_iff.1 h
    exact .inr (.inl (by rw [hf]; rfl))
  · exact .inr (.inr h)

/-! ## One id moves -/

section

variable (hp : p.Placed)
include hp

theorem Placed.requeue {f : InFlight} (hf : p.inflight.lookup id = some f) (hfree : p.want.lookup f.num = none)
    : (p.requeue (id, f.num)).Placed := by
  have hnum := hp.claimed hf
  constructor
  · intro id' n' h
    have hloc' := hp.located h
    unfold Located FetchPoolInner.requeue at *
    simp only [lookup_insert_eq, lookup_erase_eq] at *
    grind
  · intro id' n' h
    have := @hp.wanted id' n'
    unfold FetchPoolInner.requeue at *
    simp only [lookup_insert_eq] at *
    grind
  · intro id' f' h
    have := @hp.claimed id' f'
    unfold FetchPoolInner.requeue at *
    simp only [lookup_erase_eq] at *
    grind
  · exact hp.fetched
  · exact hp.seen

/-- A new want: the id has not been seen, and its number is free. -/
theorem Placed.pushWant (out : List BlockId) (hseen : id ∉ p.seen) (hfree : p.want.lookup n = none)
    : (pushWant (p, out) (n, id)).1.Placed := by
  have hnew : p.numOf.lookup id = none :=
    Option.eq_none_iff_forall_ne_some.2 fun m hm => hseen (hp.seen hm)
  have hflight : p.inflight.lookup id = none :=
    Option.eq_none_iff_forall_ne_some.2 fun f hf => by rw [hp.claimed hf] at hnew; cases hnew
  have hready : p.ready.lookup id = none := by
    by_contra hr
    have hknown := hp.fetched (Option.ne_none_iff_isSome.1 hr)
    rw [hnew] at hknown
    cases hknown
  unfold FetchPoolInner.pushWant
  rw [if_neg hseen]
  constructor
  · intro id' n' h
    have hloc := @hp.located id' n'
    unfold Located at *
    simp only [lookup_insert_eq] at *
    grind
  · intro id' n' h
    have hwant := @hp.wanted id' n'
    simp only [lookup_insert_eq] at *
    grind
  · intro id' f h
    have hclaim := hp.claimed h
    simp only [lookup_insert_eq]
    grind
  · intro id' h
    have hfetch := hp.fetched h
    simp only [lookup_insert_eq]
    grind
  · intro id' n' h
    have hs := @hp.seen id' n'
    simp only [lookup_insert_eq, Finset.mem_insert] at *
    grind

theorem Placed.take (conn now : Nat) (hw : p.want.lookup n = some id) : (take conn now p (n, id)).Placed := by
  have hnum := hp.wanted hw
  unfold FetchPoolInner.take
  constructor
  · intro id' n' h
    have hloc' := hp.located h
    unfold Located at *
    simp only [lookup_insert_eq, lookup_erase_eq] at *
    grind
  · intro id' n' h
    have hwant := @hp.wanted id' n'
    simp only [lookup_erase_eq] at *
    grind
  · intro id' f h
    have hclaim := @hp.claimed id' f
    simp only [lookup_insert_eq] at *
    grind
  · exact hp.fetched
  · exact hp.seen

/-- A delivered block, if it is not in flight, takes no other id out of `want`. -/
theorem Placed.deliver (bytes : Bytes) (hclear : p.Clear (.deliver id bytes)) : (p.deliver id bytes).Placed := by
  unfold FetchPoolInner.deliver
  cases hf : p.inflight.lookup id with
  | some f =>
    have hnum := hp.claimed hf
    constructor
    · intro id' n' h
      have hloc := hp.located h
      unfold Located at *
      simp only [lookup_insert_eq, lookup_erase_eq] at *
      grind
    · exact hp.wanted
    · intro id' f' h
      have hclaim := @hp.claimed id' f'
      simp only [lookup_erase_eq] at *
      grind
    · intro id' h
      have hfetch := @hp.fetched id'
      simp only [lookup_insert_eq] at *
      grind
    · exact hp.seen
  | none =>
    cases hn : p.numOf.lookup id with
    | none => exact hp
    | some n =>
      cases hw : p.want.lookup n with
      | none =>
        simp only [hw]
        exact hp
      | some w =>
        simp only [hw]
        have hid : w = id := hclear hf n hn w hw
        subst hid
        have hloc := hp.located hn
        have hready : p.ready.lookup w = none := by
          unfold Located at hloc
          grind
        simp only [hready, Option.isSome_none, Bool.false_eq_true, if_false]
        constructor
        · intro id' n' h
          have hloc' := hp.located h
          unfold Located at *
          simp only [lookup_insert_eq, lookup_erase_eq] at *
          grind
        · intro id' n' h
          have hwant := @hp.wanted id' n'
          simp only [lookup_erase_eq] at *
          grind
        · exact hp.claimed
        · intro id' h
          have hfetch := @hp.fetched id'
          simp only [lookup_insert_eq] at *
          grind
        · exact hp.seen

theorem Placed.takeReady (id : BlockId) : (p.takeReady id).1.Placed := by
  unfold FetchPoolInner.takeReady
  cases hr : p.ready.lookup id with
  | none => exact hp
  | some bytes =>
    obtain ⟨n, hn⟩ := Option.isSome_iff_exists.1 (hp.fetched (by rw [hr]; rfl))
    have hloc := hp.located hn
    constructor
    · intro id' n' h
      have hloc' := @hp.located id' n'
      unfold Located at *
      simp only [lookup_erase_eq] at *
      grind
    · intro id' n' h
      have hwant := hp.wanted h
      unfold Located at *
      simp only [lookup_erase_eq]
      grind
    · intro id' f h
      have hclaim := hp.claimed h
      unfold Located at *
      simp only [lookup_erase_eq]
      grind
    · intro id' h
      have hfetch := @hp.fetched id'
      simp only [lookup_erase_eq] at *
      grind
    · intro id' n' h
      have hs := @hp.seen id' n'
      simp only [lookup_erase_eq, Finset.mem_erase] at *
      grind

theorem Placed.forget (id : BlockId) : (p.forget id).Placed := by
  unfold FetchPoolInner.forget
  have hkeep : ∀ n id', (p.want.lookup n).filter (fun v => decide (v ≠ id)) = some id' ↔
      p.want.lookup n = some id' ∧ id' ≠ id := by
    intro n id'
    rw [Option.filter_eq_some_iff, decide_eq_true_iff]
  constructor
  · intro id' n' h
    have hloc := @hp.located id' n'
    unfold Located at *
    simp only [lookup_erase_eq, lookup_retain, ne_eq, hkeep] at *
    grind
  · intro id' n' h
    have hwant := @hp.wanted id' n'
    simp only [lookup_erase_eq, lookup_retain, hkeep] at *
    grind
  · intro id' f h
    have hclaim := @hp.claimed id' f
    simp only [lookup_erase_eq] at *
    grind
  · intro id' h
    have hfetch := @hp.fetched id'
    simp only [lookup_erase_eq] at *
    grind
  · intro id' n' h
    have hs := @hp.seen id' n'
    simp only [lookup_erase_eq] at *
    grind

end

/-! ## Lists of ids move -/

theorem Placed.pushWants (hp : p.Placed) (items : List (Int × BlockId)) (out : List BlockId)
    (hnodup : ((newWants p.seen items).map (·.1)).Nodup)
    (hfree : ∀ e ∈ newWants p.seen items, p.want.lookup e.1 = none) :
    (items.foldl FetchPoolInner.pushWant (p, out)).1.Placed := by
  induction items generalizing p out with
  | nil => exact hp
  | cons e items ih =>
    obtain ⟨n, id⟩ := e
    rw [foldl_cons]
    by_cases hseen : id ∈ p.seen
    · rw [newWants, if_pos hseen] at hnodup hfree
      have hskip : FetchPoolInner.pushWant (p, out) (n, id) = (p, out) := by
        unfold FetchPoolInner.pushWant
        rw [if_pos hseen]
      rw [hskip]
      exact ih hp out hnodup hfree
    · rw [newWants, if_neg hseen] at hnodup hfree
      obtain ⟨hn, hnodup⟩ := nodup_cons.1 hnodup
      have hplaced := hp.pushWant out hseen (hfree _ mem_cons_self)
      have hpush : FetchPoolInner.pushWant (p, out) (n, id) =
          ({ p with seen := insert id p.seen, want := p.want.insert n id,
                    numOf := p.numOf.insert id n }, out ++ [id]) := by
        unfold FetchPoolInner.pushWant
        rw [if_neg hseen]
      rw [hpush] at hplaced ⊢
      refine ih hplaced _ hnodup fun e he => ?_
      -- the numbers of the wants that follow are other ones
      have hne : e.1 ≠ n := fun h => hn (mem_map.2 ⟨e, he, h⟩)
      rw [lookup_insert_eq, if_neg hne]
      exact hfree e (mem_cons_of_mem _ he)

theorem Placed.requeueAll (hp : p.Placed) (l : List (BlockId × Int))
    (hl : ∀ e ∈ l, ∃ f, p.inflight.lookup e.1 = some f ∧ f.num = e.2)
    (hids : (l.map (·.1)).Nodup) (hnums : (l.map (·.2)).Nodup)
    (hfree : ∀ e ∈ l, p.want.lookup e.2 = none) : (l.foldl FetchPoolInner.requeue p).Placed := by
  induction l generalizing p with
  | nil => exact hp
  | cons e l ih =>
    obtain ⟨id, n⟩ := e
    obtain ⟨f, hf, rfl⟩ := hl _ mem_cons_self
    obtain ⟨hid, hids⟩ := nodup_cons.1 hids
    obtain ⟨hn, hnums⟩ := nodup_cons.1 hnums
    refine ih (hp.requeue hf (hfree _ mem_cons_self)) (fun e he => ?_) hids hnums fun e he => ?_
    · have hne : e.1 ≠ id := fun h => hid (mem_map.2 ⟨e, he, h⟩)
      obtain ⟨f', hf', hnum⟩ := hl e (mem_cons_of_mem _ he)
      refine ⟨f', ?_, hnum⟩
      rw [FetchPoolInner.requeue, lookup_erase_eq, if_neg hne, hf']
    · have hne : e.2 ≠ f.num := fun h => hn (mem_map.2 ⟨e, he, h⟩)
      rw [FetchPoolInner.requeue, lookup_insert_eq, if_neg hne]
      exact hfree e (mem_cons_of_mem _ he)

theorem mem_claims {test : BlockId → InFlight → Bool} {e : BlockId × Int} (h : e ∈ p.claims test) :
    ∃ f, p.inflight.lookup e.1 = some f ∧ f.num = e.2 ∧ test e.1 f = true := by
  obtain ⟨c, hc, rfl⟩ := mem_map.1 h
  obtain ⟨hmem, htest⟩ := mem_filter.1 hc
  exact ⟨c.2, (mem_dlookup_iff p.inflight.nodupKeys).2 hmem, rfl, htest⟩

theorem nodup_claims (test : BlockId → InFlight → Bool) : ((p.claims test).map (·.1)).Nodup := by
  have hkeys : (p.inflight.entries.map (·.1)).Nodup := p.inflight.nodupKeys
  rw [claims, map_map]
  exact hkeys.sublist (filter_sublist.map _)

/-- The claims that satisfy a test go back, in any order. -/
theorem Placed.requeueClaims (hp : p.Placed) (order : IterOrder (BlockId × Int))
    {test : BlockId → InFlight → Bool} (h : p.Returnable fun id f => test id f = true) :
    ((order.iter (p.claims test)).foldl FetchPoolInner.requeue p).Placed := by
  have hperm := order.perm (p.claims test)
  have hids : ((order.iter (p.claims test)).map (·.1)).Nodup :=
    (hperm.map _).nodup_iff.2 (nodup_claims test)
  refine hp.requeueAll _ (fun e he => ?_) hids ?_ fun e he => ?_
  · obtain ⟨f, hf, hnum, -⟩ := mem_claims (hperm.mem_iff.1 he)
    exact ⟨f, hf, hnum⟩
  · -- two claims with one number are one claim
    refine List.Nodup.map_on (fun e he e' he' heq => ?_) (List.Nodup.of_map _ hids)
    obtain ⟨f, hf, hnum, ht⟩ := mem_claims (hperm.mem_iff.1 he)
    obtain ⟨f', hf', hnum', ht'⟩ := mem_claims (hperm.mem_iff.1 he')
    have hid := (h e'.1 f' hf' ht').2 e.1 f hf ht (by rw [hnum, hnum', heq])
    exact Prod.ext hid heq
  · obtain ⟨f, hf, hnum, ht⟩ := mem_claims (hperm.mem_iff.1 he)
    rw [← hnum]
    exact (h e.1 f hf ht).1

theorem Placed.reclaimIds (hp : p.Placed) (ids : List BlockId)
    (h : p.Returnable fun id _ => id ∈ ids) : (p.reclaimIds ids).Placed := by
  unfold FetchPoolInner.reclaimIds
  induction ids generalizing p with
  | nil => exact hp
  | cons id ids ih =>
    rw [foldl_cons]
    unfold FetchPoolInner.reclaimId
    cases hf : p.inflight.lookup id with
    | none =>
      refine ih hp fun id' f' hf' hmem => ?_
      obtain ⟨hfree, hone⟩ := h id' f' hf' (mem_cons_of_mem _ hmem)
      exact ⟨hfree, fun id'' f'' hf'' hmem' => hone id'' f'' hf'' (mem_cons_of_mem _ hmem')⟩
    | some f =>
      obtain ⟨hfree, hone⟩ := h id f hf mem_cons_self
      show (ids.foldl reclaimId (p.requeue (id, f.num))).Placed
      refine ih (hp.requeue hf hfree) fun id' f' hf' hmem => ?_
      rw [FetchPoolInner.requeue, lookup_erase_eq] at hf'
      split at hf'
      · cases hf'
      · rename_i hne
        obtain ⟨hfree', hone'⟩ := h id' f' hf' (mem_cons_of_mem _ hmem)
        have hnum : f'.num ≠ f.num :=
          fun heq => hne (hone id' f' hf' (mem_cons_of_mem _ hmem) heq)
        refine ⟨by rw [FetchPoolInner.requeue, lookup_insert_eq, if_neg hnum, hfree'], fun id'' f'' hf'' hmem' => ?_⟩
        rw [FetchPoolInner.requeue, lookup_erase_eq] at hf''
        split at hf''
        · cases hf''
        · exact hone' id'' f'' hf'' (mem_cons_of_mem _ hmem')

theorem Placed.takeAll (hp : p.Placed) (conn now : Nat) (l : List (Int × BlockId))
    (hl : ∀ e ∈ l, p.want.lookup e.1 = some e.2) (hnums : (l.map (·.1)).Nodup) :
    (l.foldl (FetchPoolInner.take conn now) p).Placed := by
  induction l generalizing p with
  | nil => exact hp
  | cons e l ih =>
    obtain ⟨hn, hnums⟩ := nodup_cons.1 hnums
    refine ih (hp.take conn now (hl _ mem_cons_self)) (fun e' he => ?_) hnums
    have hne : e'.1 ≠ e.1 := fun h => hn (mem_map.2 ⟨e', he, h⟩)
    rw [FetchPoolInner.take, lookup_erase_eq, if_neg hne]
    exact hl e' (mem_cons_of_mem _ he)

variable (r : ClaimRequest)

theorem picked_subperm : ∃ l, (p.picked r).Sublist l ∧ l.Perm (p.want.entries.map fun e => (e.1, e.2)) :=
  ⟨p.inOrder, (take_sublist ..).trans filter_sublist, perm_insertionSort ..⟩

theorem mem_picked {r : ClaimRequest} {e : Int × BlockId} (h : e ∈ p.picked r) : p.want.lookup e.1 = some e.2 := by
  obtain ⟨l, hsub, hperm⟩ := @picked_subperm p r
  obtain ⟨c, hc, rfl⟩ := mem_map.1 (hperm.mem_iff.1 (hsub.subset h))
  exact (mem_dlookup_iff p.want.nodupKeys).2 hc

theorem nodup_picked : ((p.picked r).map (·.1)).Nodup := by
  obtain ⟨l, hsub, hperm⟩ := @picked_subperm p r
  have hkeys : (p.want.entries.map (·.1)).Nodup := p.want.nodupKeys
  refine List.Nodup.sublist (hsub.map _) ((hperm.map _).nodup_iff.2 ?_)
  rw [map_map]
  exact hkeys

/-! ## Calls -/

theorem placed_step {c : Call} (hp : p.Placed) (hc : p.Clear c) : (step p c).Placed := by
  cases c with
  | pushWants items => exact hp.pushWants items [] hc.1 hc.2
  | claim order r =>
    exact (hp.requeueClaims order hc).takeAll _ _ _ (fun e he => mem_picked he) (nodup_picked r)
  | reclaimConn order conn =>
    refine hp.requeueClaims order fun id f hf hconn => ?_
    obtain ⟨hfree, hone⟩ := hc id f hf (beq_iff_eq.1 hconn)
    exact ⟨hfree, fun id' f' hf' hconn' => hone id' f' hf' (beq_iff_eq.1 hconn')⟩
  | reclaimIds ids => exact hp.reclaimIds ids hc
  | deliver id bytes => exact hp.deliver bytes hc
  | takeReady id => exact hp.takeReady id
  | forget id => exact hp.forget id

theorem numOf_requeueAll (p : FetchPoolInner) (l : List (BlockId × Int)) : (l.foldl requeue p).numOf = p.numOf := by
  induction l generalizing p with
  | nil => rfl
  | cons e l ih => exact ih _

theorem numOf_takeAll (p : FetchPoolInner) (conn now : Nat) (l : List (Int × BlockId)) :
    (l.foldl (take conn now) p).numOf = p.numOf := by
  induction l generalizing p with
  | nil => rfl
  | cons e l ih => exact ih _

theorem numOf_reclaimIds (p : FetchPoolInner) (ids : List BlockId) : (ids.foldl reclaimId p).numOf = p.numOf := by
  induction ids generalizing p with
  | nil => rfl
  | cons id ids ih =>
    rw [foldl_cons, ih]
    unfold reclaimId
    split <;> rfl

theorem numOf_pushWants (items : List (Int × BlockId)) (out : List BlockId)
    (h : p.numOf.lookup id = some n) (hid : id ∈ p.seen) :
    (items.foldl pushWant (p, out)).1.numOf.lookup id = some n := by
  induction items generalizing p out with
  | nil => exact h
  | cons e items ih =>
    rw [foldl_cons]
    unfold pushWant
    by_cases hseen : e.2 ∈ p.seen
    · rw [if_pos hseen]
      exact ih out h hid
    · rw [if_neg hseen]
      have hne : id ≠ e.2 := fun heq => hseen (heq ▸ hid)
      refine ih _ ?_ (Finset.mem_insert_of_mem hid)
      rw [lookup_insert_eq, if_neg hne, h]

/-- A call forgets no number but that of the id it is about. -/
theorem numOf_step (hp : p.Placed) {c : Call} (hid : c.subject ≠ some id)
    (h : p.numOf.lookup id = some n) : (step p c).numOf.lookup id = some n := by
  cases c with
  | pushWants items => exact numOf_pushWants items [] h (hp.seen h)
  | claim order r =>
    show (((order.iter (p.claims r.stalled)).foldl requeue p).picked r |>.foldl
      (take r.conn r.now) ((order.iter (p.claims r.stalled)).foldl requeue p)).numOf.lookup id = _
    rw [numOf_takeAll, numOf_requeueAll, h]
  | reclaimConn order conn =>
    show ((order.iter (p.claims fun _ f => f.conn == conn)).foldl requeue p).numOf.lookup id = _
    rw [numOf_requeueAll, h]
  | reclaimIds ids =>
    show (ids.foldl reclaimId p).numOf.lookup id = _
    rw [numOf_reclaimIds, h]
  | deliver id' bytes =>
    show (p.deliver id' bytes).numOf.lookup id = some n
    unfold deliver
    split
    · exact h
    · split
      · exact h
      · split <;> exact h
  | takeReady id' =>
    have hne : id ≠ id' := fun heq => hid (by rw [heq]; rfl)
    show (p.takeReady id').1.numOf.lookup id = some n
    unfold takeReady
    split
    · exact h
    · rw [lookup_erase_eq, if_neg hne, h]
  | forget id' =>
    have hne : id ≠ id' := fun heq => hid (by rw [heq]; rfl)
    show (p.numOf.erase id').lookup id = some n
    rw [lookup_erase_eq, if_neg hne, h]

def InFlightFor (p : FetchPoolInner) (conn : Nat) (id : BlockId) : Prop :=
  (p.inflight.lookup id).map (·.conn) = some conn

/-- **The pool loses no block and duplicates no request.**  After every run of clear calls each known
id is in exactly one of the three collections under its own number, and in flight for at most one
connection; and a further clear call removes no id but the one it is about. -/
theorem pool_keeps (calls : List Call) (h : Each step new Clear calls) :
    (∀ id n, (after step new calls).numOf.lookup id = some n → (after step new calls).Located id n) ∧
    (∀ id n, (after step new calls).want.lookup n = some id → (after step new calls).numOf.lookup id = some n) ∧
    (∀ id conn conn', (after step new calls).InFlightFor conn id →
      (after step new calls).InFlightFor conn' id → conn = conn') ∧
    ∀ c, (after step new calls).Clear c → ∀ id, c.subject ≠ some id →
      (after step new calls).Held id → (step (after step new calls) c).Held id := by
  have hp : (after step new calls).Placed :=
    History.invariant_each placed_new (fun _ _ => placed_step) h
  refine ⟨fun id n => hp.located, fun id n => hp.wanted, fun id conn conn' hc hc' => ?_, fun c hc id hid hheld => ?_⟩
  · unfold InFlightFor at hc hc'
    rw [hc] at hc'
    exact Option.some.inj hc'
  · obtain ⟨n, hn⟩ := hp.known hheld
    exact (placed_step hp hc).held (numOf_step hp hid hn)

namespace Sample

def a : BlockId := List.replicate 32 1
def b : BlockId := List.replicate 32 2

/-- Connection 1 asks for blocks up to number 10; no claim has stalled. -/
def request : ClaimRequest := ⟨1, 10, 10, 100, 5, fun _ => false, fun _ _ => 0, 0⟩

/-- Entries in the order they are stored in. -/
def stored : IterOrder (BlockId × Int) := ⟨fun l => l, List.Perm.refl⟩

/-- A block is wanted, claimed and delivered, and then its rival of the same number is wanted. -/
def inTurn : List Call :=
  [.pushWants [(5, a)], .claim stored request, .deliver a [0], .pushWants [(5, b)]]

/-- Two rival blocks of one number are wanted. -/
def rivals : List Call := [.pushWants [(5, a)], .pushWants [(5, b)]]

end Sample

open Sample in
theorem pool_keeps_inTurn : (after step new inTurn).numOf.lookup a = some 5 ∧ (after step new inTurn).Located a 5 := by
  have hclaim : (after step new [.pushWants [(5, a)]]).Clear (.claim stored request) := by
    intro id f hf hstalled
    exact absurd hstalled Bool.false_ne_true
  have hdeliver : (after step new [.pushWants [(5, a)], .claim stored request]).Clear
      (.deliver a [0]) := by
    intro hf
    exact absurd hf (by decide +kernel)
  have heach : Each step new Clear inTurn :=
    .cons ⟨by decide, by decide⟩ (.cons hclaim (.cons hdeliver
      (.cons ⟨by decide +kernel, by decide +kernel⟩ (History.each_nil _))))
  have hnum : (after step new inTurn).numOf.lookup a = some 5 := by decide +kernel
  exact ⟨hnum, (pool_keeps inTurn heach).1 a 5 hnum⟩

open Sample in
/-- A want replaces the rival's, and a block that is delivered again takes the rival's want away. -/
theorem rivals_lost :
    ((after step new rivals).numOf.lookup a = some 5 ∧ ¬ (after step new rivals).Located a 5) ∧
      (after step new inTurn).Held b ∧
      ¬ (step (after step new inTurn) (.deliver a [0])).Held b := by
  refine ⟨⟨by decide +kernel, ?_⟩, .inl ⟨5, by decide +kernel⟩, ?_⟩
  · rintro (⟨h, -⟩ | ⟨-, h, -⟩ | ⟨-, -, h⟩) <;> exact absurd h (by decide +kernel)
  · rintro (⟨n, h⟩ | h | h)
    · cases h
    · exact absurd h (by decide +kernel)
    · exact absurd h (by decide +kernel)

/-! ## Prediction -/

def ClaimRequest.mayHave (n : Int) (id : BlockId) : Prop := n ≤ r.maxNum ∧ r.alreadyFetched id = false

section Predictable

variable (p : FetchPoolInner) (order : IterOrder (BlockId × Int)) (r : ClaimRequest)

/-- The stalled claim that is put back at a number: the last one of it in the order of the iteration. -/
def putBack (n : Int) : Option BlockId :=
  ((order.iter (p.claims r.stalled)).reverse.find? fun e => e.2 = n).map (·.1)

/-- The wanted id of this number is one that the caller may have. -/
def Wanted (n : Int) : Prop := ∃ id, p.want.lookup n = some id ∧ r.mayHave n id

/-- The stalled claim that is put back at this number is one that the caller may have. -/
def Returns (n : Int) : Prop := ∃ id, p.putBack order r n = some id ∧ r.mayHave n id

/-- With a full buffer, stalled claims displace all that the caller may have, and add nothing of it.  With room, and
if it asks for any, one of its wants keeps its place, or stalled claims add some exactly if it had some. -/
def Predictable : Prop :=
  if r.readyCap ≤ Assoc.size p.ready then
    (∀ n, p.Wanted r n → p.putBack order r n ≠ none) ∧ ∀ n, ¬ p.Returns order r n
  else if r.max = 0 then ∀ n, ¬ p.Wanted r n
  else (∃ n, p.Wanted r n ∧ p.putBack order r n = none) ∨ ((∃ n, p.Wanted r n) ↔ ∃ n, p.Returns order r n)

end Predictable

theorem lookup_requeueAll (p : FetchPoolInner) (l : List (BlockId × Int)) (n : Int) :
    (l.foldl requeue p).want.lookup n = ((l.reverse.find? fun e => e.2 = n).map (·.1)).or (p.want.lookup n) ∧
      (l.foldl requeue p).ready = p.ready := by
  induction l using List.reverseRecOn with
  | nil => simp
  | append_singleton l e ih =>
    by_cases h : e.2 = n
    · simp [requeue, h, ih.2]
    · simp [requeue, h, AList.lookup_insert_ne (Ne.symm h), ih]

theorem mem_inOrder {e : Int × BlockId} : e ∈ p.inOrder ↔ p.want.lookup e.1 = some e.2 := by
  obtain ⟨n, id⟩ := e
  rw [inOrder, mem_insertionSort, ← Option.mem_def, AList.mem_lookup_iff]
  simp

theorem inOrder_any (p : FetchPoolInner) (r : ClaimRequest) :
    (∃ e ∈ p.inOrder, (decide (e.1 ≤ r.maxNum) && !r.alreadyFetched e.2) = true) ↔ ∃ n, p.Wanted r n := by
  simp [mem_inOrder, ClaimRequest.mayHave, Wanted]

/-- What `claim` hands out: wants that keep their places, and stalled claims. -/
theorem claim_ne_nil_iff (p : FetchPoolInner) (order : IterOrder (BlockId × Int)) (r : ClaimRequest) :
    (p.claim order r).2 ≠ [] ↔ (if r.readyCap ≤ Assoc.size p.ready then 1 else r.max) ≠ 0 ∧
      ((∃ n, p.Wanted r n ∧ p.putBack order r n = none) ∨ ∃ n, p.Returns order r n) := by
  have hq := lookup_requeueAll p (order.iter (p.claims r.stalled))
  rw [claim, Ne, map_eq_nil_iff, picked, take_eq_nil_iff, filter_eq_nil_iff, (hq 0).2, not_or]
  push Not
  rw [inOrder_any, ← exists_or]
  refine and_congr_right fun _ => exists_congr fun n => ?_
  unfold Wanted Returns
  rw [(hq n).1, ← putBack]
  cases p.putBack order r n <;> simp

/-- **When the prediction is right.** -/
theorem claimable_iff (p : FetchPoolInner) (order : IterOrder (BlockId × Int)) (r : ClaimRequest) :
    (p.claimableWithin r.maxNum r.readyCap r.alreadyFetched = true ↔ (p.claim order r).2 ≠ []) ↔
      p.Predictable order r := by
  -- a want that keeps its place was wanted
  have hkept : (∃ n, p.Wanted r n ∧ p.putBack order r n = none) → ∃ n, p.Wanted r n := fun ⟨n, h, _⟩ => ⟨n, h⟩
  rw [claim_ne_nil_iff, claimableWithin, Bool.and_eq_true, decide_eq_true_eq, any_eq_true, inOrder_any, Predictable]
  by_cases hfull : r.readyCap ≤ Assoc.size p.ready
  · simp [hfull, Nat.not_lt.2 hfull]
  · by_cases hmax : r.max = 0
    · simp [hfull, hmax, Nat.not_le.1 hfull]
    · simp only [hfull, hmax, Nat.not_le.1 hfull, if_false, true_and, ne_eq, not_false_eq_true]
      by_cases hk : ∃ n, p.Wanted r n ∧ p.putBack order r n = none
      · simp only [hk, hkept hk, true_or]
      · simp only [hk, false_or]

open Sample in
/-- With one body buffered and room for one, the next block can be claimed, and is said not to be. -/
theorem head_of_line_not_predicted :
    let p := after step new [.pushWants [(5, a), (6, b)], .claim stored { request with max := 1 }, .deliver a [0]]
    let r := { request with readyCap := 1 }
    p.claimableWithin r.maxNum r.readyCap r.alreadyFetched = false ∧ (p.claim stored r).2 = [b] := by
  decide +kernel

end FetchPoolInner

end TronGoblin
