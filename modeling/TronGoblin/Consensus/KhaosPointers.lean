import TronGoblin.Consensus.KhaosHead

/-!
# The parent pointers of the fork tree

A block of the tree (`tron-consensus/src/khaos.rs`) points at the allocation of its parent, and names the parent by its
hash.  The two lead to the same block as long as allocations are told apart.

* `Threads`: what the serials of allocations say about the pointers; linking, stashing and dropping blocks keep it.
* `Placed`: that, with the head among the linked blocks; every orderly call keeps it (`step_placed`).
* `Sound`: where a pointer can be followed, it leads where the parent hash does; `sound_after` over every orderly run.
-/

namespace TronGoblin.KhaosDb

open List KhaosStore TronGoblin.KhaosDb.Inner
open History (after Each)
open KhaosStore (Kept Agree Numbered notBelow)

variable {B : Type} {fmt : BlockFormat B} {g g' : Inner B} {c : Call B}

/-- Linked blocks are found under their ids, numbers are those of the ids, and a pointer that can be followed leads to
the linked block that the parent hash names. -/
structure Sound (fmt : BlockFormat B) (held : Nat → Bool) (db : KhaosDb (WireBlock B)) : Prop where
  found : ∀ id b, db.miniStore.byHash.lookup id = some b →
    b.node.id = id ∧ ∀ n ∈ b.node :: b.ancestors, n.num = BlockId.height n.id
  pointers : ∀ id b p ps, db.miniStore.byHash.lookup id = some b → b.ancestors = p :: ps → db.reachable held p = true →
    b.node.parentId fmt = some p.id ∧ ∃ q, db.miniStore.byHash.lookup p.id = some q ∧ q.node = p ∧ q.ancestors = ps

/-! ## Allocations -/

/-- Each linked block is one allocation, and pointers to it stand before what it points at itself; no stashed block is
pointed at. -/
structure Threads (fmt : BlockFormat B) (s t : KhaosStore (WireBlock B)) (allocated : Nat) : Prop where
  parent : ∀ id b p ps, s.byHash.lookup id = some b → b.ancestors = p :: ps → b.node.parentId fmt = some p.id
  linked : ∀ id b, s.byHash.lookup id = some b → ∀ n ∈ b.node :: b.ancestors, n.serial < allocated
  stashed : ∀ id u, t.byHash.lookup id = some u → u.node.serial < allocated
  once : ∀ id b id' r, s.byHash.lookup id = some b → s.byHash.lookup id' = some r →
    ∀ above n below, b.node :: b.ancestors = above ++ n :: below → n.serial = r.node.serial →
      n = r.node ∧ below = r.ancestors
  apart : ∀ id b id' u, s.byHash.lookup id = some b → t.byHash.lookup id' = some u →
    ∀ n ∈ b.node :: b.ancestors, n.serial ≠ u.node.serial

section Threads

variable {s s' t t' : KhaosStore (WireBlock B)} {allocated : Nat} {b : KhaosBlock (WireBlock B)}

/-- Blocks may go, and serials be spent. -/
theorem Threads.mono (h : Threads fmt s t allocated)
    (hs : ∀ id b, s'.byHash.lookup id = some b → s.byHash.lookup id = some b)
    (ht : ∀ id u, t'.byHash.lookup id = some u → t.byHash.lookup id = some u) {allocated' : Nat}
    (hle : allocated ≤ allocated') : Threads fmt s' t' allocated' where
  parent id b p ps hb := h.parent id b p ps (hs id b hb)
  linked id b hb n hn := lt_of_lt_of_le (h.linked id b (hs id b hb) n hn) hle
  stashed id u hu := lt_of_lt_of_le (h.stashed id u (ht id u hu)) hle
  once id b id' r hb hr := h.once id b id' r (hs id b hb) (hs id' r hr)
  apart id b id' u hb hu := h.apart id b id' u (hs id b hb) (ht id' u hu)

variable {n : WireNode B}

theorem Threads.stash (h : Threads fmt s t allocated) (hn : n.serial = allocated) :
    Threads fmt s (t.insert (.root n)) (allocated + 1) where
  parent := h.parent
  linked id b hb m hm := Nat.lt_succ_of_lt (h.linked id b hb m hm)
  stashed id u hu := by
    rcases of_lookup_insert hu with rfl | hu
    · exact hn ▸ Nat.lt_succ_self _
    · exact Nat.lt_succ_of_lt (h.stashed id u hu)
  once := h.once
  apart id b id' u hb hu m hm := by
    rcases of_lookup_insert hu with rfl | hu
    · have hlt := h.linked id b hb m hm
      exact fun heq => absurd (heq.trans hn) (ne_of_lt hlt)
    · exact h.apart id b id' u hb hu m hm

/-- A new block is linked to nothing, or to a linked block. -/
structure Hangs (fmt : BlockFormat B) (s : KhaosStore (WireBlock B)) (allocated : Nat) (b : KhaosBlock (WireBlock B)) :
    Prop where
  serial : b.node.serial = allocated
  ancestors : b.ancestors = [] ∨ ∃ pid p, b.node.parentId fmt = some pid ∧ s.byHash.lookup pid = some p ∧
    p.node.id = pid ∧ b.ancestors = p.node :: p.ancestors

/-- Below a new block stands what a linked block stands on. -/
theorem Hangs.below (hb : Hangs fmt s allocated b) {above below : List (WireNode B)}
    (heq : b.node :: b.ancestors = above ++ n :: below) :
    (n = b.node ∧ below = b.ancestors) ∨
      ∃ pid p above', s.byHash.lookup pid = some p ∧ p.node :: p.ancestors = above' ++ n :: below := by
  cases above with
  | nil =>
    cases heq
    exact .inl ⟨rfl, rfl⟩
  | cons m above =>
    have htail := (List.cons.inj heq).2
    rcases hb.ancestors with hnil | ⟨pid, p, -, hp, -, hanc⟩
    · rw [hnil] at htail
      exact absurd htail.symm (by simp)
    · exact .inr ⟨pid, p, above, hp, hanc ▸ htail⟩

variable (h : Threads fmt s t allocated)
include h

variable (hb : Hangs fmt s allocated b)
include hb

theorem Hangs.serial_lt (hn : n ∈ b.ancestors) : n.serial < allocated := by
  rcases hb.ancestors with hnil | ⟨pid, p, -, hp, -, hanc⟩
  · rw [hnil] at hn
    cases hn
  · exact h.linked pid p hp n (hanc ▸ hn)

theorem Threads.link : Threads fmt (s.insert b) t (allocated + 1) where
  parent id c p ps hc hanc := by
    rcases of_lookup_insert hc with rfl | hc
    · rcases hb.ancestors with hnil | ⟨pid, q, hparent, -, hid, hq⟩
      · rw [hnil] at hanc
        cases hanc
      · cases hq.symm.trans hanc
        rw [hparent, hid]
    · exact h.parent id c p ps hc hanc
  linked id c hc n hn := by
    rcases of_lookup_insert hc with rfl | hc
    · rcases mem_cons.1 hn with rfl | hn
      · exact hb.serial ▸ Nat.lt_succ_self _
      · exact Nat.lt_succ_of_lt (hb.serial_lt h hn)
    · exact Nat.lt_succ_of_lt (h.linked id c hc n hn)
  stashed id u hu := Nat.lt_succ_of_lt (h.stashed id u hu)
  once id c id' r hc hr above n below heq hserial := by
    rcases of_lookup_insert hr with rfl | hold
    · -- nothing but the new block itself has its serial
      rw [hb.serial] at hserial
      have hne : ∀ id c, s.byHash.lookup id = some c → n ∈ c.node :: c.ancestors → False :=
        fun id c hc hn => ne_of_lt (h.linked id c hc n hn) hserial
      rcases of_lookup_insert hc with rfl | hc
      · rcases hb.below heq with hself | ⟨pid, p, above', hp, hpeq⟩
        · exact hself
        · exact (hne pid p hp (hpeq ▸ by simp)).elim
      · exact (hne id c hc (heq ▸ by simp)).elim
    · rcases of_lookup_insert hc with rfl | hc
      · rcases hb.below heq with ⟨hself, -⟩ | ⟨pid, p, above', hp, hpeq⟩
        · have hlt := h.linked id' r hold r.node mem_cons_self
          rw [← hserial, hself, hb.serial] at hlt
          exact absurd hlt (lt_irrefl _)
        · exact h.once pid p id' r hp hold above' n below hpeq hserial
      · exact h.once id c id' r hc hold above n below heq hserial
  apart id c id' u hc hu n hn := by
    rcases of_lookup_insert hc with rfl | hc
    · have hlt := h.stashed id' u hu
      rcases mem_cons.1 hn with rfl | hn
      · rw [hb.serial]
        exact (ne_of_lt hlt).symm
      · rcases hb.ancestors with hnil | ⟨pid, p, -, hp, -, hanc⟩
        · rw [hnil] at hn
          cases hn
        · exact h.apart pid p id' u hp hu n (hanc ▸ hn)
    · exact h.apart id c id' u hc hu n hn

end Threads

/-! ## Orderly runs -/

/-- The linked store and the stash are threaded, and the head is linked. -/
structure Placed (fmt : BlockFormat B) (g : Inner B) : Prop where
  ordered : Ordered g
  agree : ∀ id, g.miniStore.Agree id
  named : Named g.miniStore
  capacity : 0 ≤ g.maxCapacity
  threads : Threads fmt g.miniStore g.miniUnlinkedStore g.allocated
  head : ∀ h, g.head = some h → g.miniStore.byHash.lookup h.node.id = some h

theorem lookup_of_mem_listed {s : KhaosStore (WireBlock B)} (ha : ∀ id, s.Agree id) {b : KhaosBlock (WireBlock B)}
    {n : Int} (hmem : b ∈ s.listed n) : s.byHash.lookup b.node.id = some b := by
  have hlisted : b ∈ s.listedAs b.node.id n := mem_filter.2 ⟨hmem, decide_eq_true rfl⟩
  rw [ha b.node.id n] at hlisted
  exact Option.mem_toList.1 (mem_filter.1 hlisted).1

theorem lookup_of_mem_holds {s : KhaosStore (WireBlock B)} (ha : ∀ id, s.Agree id) {b : KhaosBlock (WireBlock B)}
    (hb : b ∈ s.holds) : ∃ id, s.byHash.lookup id = some b := by
  rcases mem_append.1 hb with hb | hb
  · exact Assoc.exists_lookup_of_mem_values hb
  · obtain ⟨list, hlist, hb⟩ := mem_flatten.1 hb
    obtain ⟨n, hn⟩ := Assoc.exists_lookup_of_mem_values hlist
    exact ⟨_, lookup_of_mem_listed ha (n := n) (by rwa [listed, hn])⟩

/-- If callers hold no more than the tree does, pointers lead where the parent hashes do. -/
theorem Placed.sound (hg : Placed fmt g) {held : Nat → Bool}
    (hheld : ∀ n, held n.serial = true → g.toKhaosDb.alive n = true) : Sound fmt held g.toKhaosDb where
  found id b hb := by
    obtain ⟨hid, hnum, -⟩ := hg.ordered.linked.found hb
    refine ⟨hid, fun n hn => ?_⟩
    rcases mem_cons.1 hn with rfl | hn
    · rw [hnum, hid]
    · exact hg.named id b hb n hn
  pointers id b p ps hb hanc hp := by
    refine ⟨hg.threads.parent id b p ps hb hanc, ?_⟩
    have halive := (Bool.or_eq_true_iff.1 (Bool.and_eq_true_iff.1 hp).1).elim (hheld p) fun h => h
    obtain ⟨r, hr, hserial⟩ := any_eq_true.1 halive
    have hsplit : b.node :: b.ancestors = [b.node] ++ p :: ps := by rw [hanc]; rfl
    have hmem : p ∈ b.node :: b.ancestors := by rw [hsplit]; simp
    -- who keeps the block is linked: it is not in the stash
    have hlinked : ∃ id', g.miniStore.byHash.lookup id' = some r := by
      rcases mem_append.1 hr with hr | hr
      · rcases mem_append.1 hr with hr | hr
        · exact lookup_of_mem_holds hg.agree hr
        · obtain ⟨id', hu⟩ := lookup_of_mem_holds hg.ordered.agree hr
          exact absurd (beq_iff_eq.1 hserial).symm (hg.threads.apart id b id' r hb hu p hmem)
      · exact ⟨r.node.id, hg.head r (Option.mem_toList.1 hr)⟩
    obtain ⟨id', hr⟩ := hlinked
    obtain ⟨rfl, rfl⟩ := hg.threads.once id b id' r hb hr _ _ _ hsplit (beq_iff_eq.1 hserial).symm
    have hid := (hg.ordered.linked.found hr).1
    exact ⟨r, hid ▸ hr, rfl, rfl⟩

/-- A call that starts no linked block over, points the head at linked blocks only, and sets a capacity that is not
negative as an `i64`. -/
def Orderly (fmt : BlockFormat B) (g : Inner B) : Call B → Prop
  | .start block => ∀ id, blockIdFromBlock fmt block = some id → g.miniStore.contains id = false
  | .pop held => ∀ h, (g.pop held).2.head = some h → g.miniStore.byHash.lookup h.node.id = some h
  | .setHead b => g.miniStore.byHash.lookup b.node.id = some b
  | .setMaxSize maxSize => 0 ≤ BigEndian.wrapI64 maxSize
  | .pushWithRaw .. | .takeOrphansWaitingOn _ | .remove _ => True

theorem placed_new : Placed fmt (new : Inner B) where
  ordered := ordered_new
  agree := agree_empty
  named _ _ h := by cases h
  capacity := (by decide : (0 : Int) ≤ 1024)
  threads :=
    { parent := fun _ _ _ _ h => by cases h
      linked := fun _ _ h => by cases h
      stashed := fun _ _ h => by cases h
      once := fun _ _ _ _ h => by cases h
      apart := fun _ _ _ _ h => by cases h }
  head _ h := by cases h

variable {b : KhaosBlock (WireBlock B)}

theorem Placed.hangs (hg : Placed fmt g) (hb : linking fmt g c = some b) : Hangs fmt g.miniStore g.allocated b := by
  refine ⟨(linking_ancestors hb).1, (linking_ancestors hb).2.imp_right ?_⟩
  rintro ⟨pid, p, hparent, hp, -, hanc⟩
  exact ⟨pid, p, hparent, hp, (hg.ordered.linked.found hp).1, hanc⟩

theorem Placed.agree_insert (hg : Placed fmt g) (hfresh : g.miniStore.contains b.node.id = false) (id : BlockId) :
    (g.miniStore.insert b).Agree id := by
  by_cases hid : id = b.node.id
  · rw [hid]
    exact hg.ordered.linked.agree_insert hfresh
  · exact (hg.agree id).insert_ne hid

theorem lookup_electHead {s : KhaosStore (WireBlock B)} (ha : ∀ id, s.Agree id)
    {h : KhaosBlock (WireBlock B)} (hh : electHead s = some h) : s.byHash.lookup h.node.id = some h := by
  obtain ⟨list, hlist, hh⟩ := Option.bind_eq_some_iff.1 hh
  obtain ⟨n, -, hlist⟩ := Option.bind_eq_some_iff.1 hlist
  exact lookup_of_mem_listed ha (n := n) (by rw [listed, hlist]; exact mem_of_mem_head? hh)

/-- A linked block leaves the linked head where it is, or is the head. -/
theorem head_linked (g : Inner B) (b : KhaosBlock (WireBlock B)) :
    ∃ h, ((allocating g).linked b).head = some h ∧ (h = b ∨ g.head = some h) := by
  unfold linked promoteHeadIfHigher
  dsimp [allocating]
  cases hh : g.head with
  | none => exact ⟨b, rfl, .inl rfl⟩
  | some h =>
    dsimp only
    split
    · exact ⟨b, rfl, .inl rfl⟩
    · exact ⟨h, rfl, .inr rfl⟩

section

variable (hg : Placed fmt g)
include hg

theorem placed_link (hb : linking fmt g c = some b) (hfresh : g.miniStore.contains b.node.id = false)
    (hordered : Ordered ((allocating g).linked b).prune) : Placed fmt ((allocating g).linked b).prune := by
  have hfields := linked_fields g b
  have hnumbered := hg.ordered.linked.insert (linking_spec hb).1
  have hkept := kept_linked hg.ordered.linked hb
  obtain ⟨h', hhead, hwhich⟩ := head_linked g b
  have hlook : (g.miniStore.insert b).byHash.lookup h'.node.id = some h' := by
    rw [lookup_insert]
    rcases hwhich with rfl | hold
    · exact if_pos rfl
    · have hfound := hg.head h' hold
      refine (if_neg fun heq => ?_).trans hfound
      rw [← heq, KhaosStore.contains, hfound] at hfresh
      cases hfresh
  refine ⟨hordered, fun id => hkept.agree fun _ => hg.agree_insert hfresh id,
    (hg.named.insert (hg.named.linking hg.ordered.linked hb)).kept hkept, ?_, ?_, fun h hh => ?_⟩
  · show 0 ≤ ((allocating g).linked b).maxCapacity
    rw [hfields.1]
    exact hg.capacity
  · refine (hg.threads.link (hg.hangs hb)).mono (lookup_of_kept hkept)
      (lookup_of_kept (kept_stashed hg.ordered.stashed b)) ?_
    exact le_of_eq hfields.2.symm
  · cases hhead.symm.trans hh
    rw [hkept.lookup, if_pos]
    · exact hlook
    · exact notBelow_head hhead (by rw [hfields.1]; exact hg.capacity) (hnumbered.found hlook).2.1

theorem Placed.same (hordered : Ordered g') (hstore : g'.miniStore = g.miniStore)
    (hhead : ∀ h, g'.head = some h → g.miniStore.byHash.lookup h.node.id = some h)
    (hcap : g'.maxCapacity = g.maxCapacity) (hthreads : Threads fmt g'.miniStore g'.miniUnlinkedStore g'.allocated)
    : Placed fmt g' := by
  refine ⟨hordered, ?_, ?_, ?_, hthreads, ?_⟩
  · rw [hstore]
    exact hg.agree
  · rw [hstore]
    exact hg.named
  · rw [hcap]
    exact hg.capacity
  · rw [hstore]
    exact hhead

theorem placed_stash {n : WireNode B} (hserial : n.serial = g.allocated) (hnum : n.num = BlockId.height n.id)
    (pid : BlockId) (raw : Option Bytes) (hordered : Ordered ((allocating g).stash n pid raw))
    : Placed fmt ((allocating g).stash n pid raw) := by
  obtain ⟨hhead, hcap, hallocated⟩ := head_stash g n pid raw
  have hstore := miniStore_stash g n pid raw
  refine hg.same hordered hstore (hhead ▸ hg.head) hcap ?_
  rw [hstore, hallocated]
  -- the block is in the stash, or the stash had it before
  have hstash : ∃ t, Threads fmt g.miniStore t (g.allocated + 1) ∧ t.Numbered ∧
      (((allocating g).await n pid).keepRaw n.id raw).miniUnlinkedStore = t := by
    rw [(stores_keepRaw ..).2, (stores_await ..).2]
    split
    · exact ⟨_, hg.threads.mono (fun _ _ h => h) (fun _ _ h => h) (Nat.le_succ _), hg.ordered.stashed, rfl⟩
    · exact ⟨_, hg.threads.stash hserial, hg.ordered.stashed.insert hnum, rfl⟩
  obtain ⟨t, hthreads, hnumbered, heq⟩ := hstash
  have hkept : Kept (notBelow (((allocating g).await n pid).keepRaw n.id raw).threshold) t
      ((allocating g).stash n pid raw).miniUnlinkedStore := by
    rw [← heq] at hnumbered ⊢
    exact hnumbered.kept_pruneBelow _
  exact hthreads.mono (fun _ _ h => h) (lookup_of_kept hkept) (le_refl _)

theorem placed_remove (id : BlockId) (hordered : Ordered (g.remove id)) : Placed fmt (g.remove id) := by
  unfold Inner.remove KhaosDb.remove at hordered ⊢
  cases hr : g.miniStore.remove id with
  | some s' =>
    rw [hr] at hordered
    have hkept := hg.ordered.linked.kept_remove hr
    have hagree : ∀ id, s'.Agree id := fun id => hkept.agree fun _ => hg.agree id
    exact ⟨hordered, hagree, hg.named.kept hkept, hg.capacity,
      hg.threads.mono (lookup_of_kept hkept) (fun _ _ h => h) (le_refl _), fun h hh => lookup_electHead hagree hh⟩
  | none =>
    rw [hr] at hordered
    cases hu : g.miniUnlinkedStore.remove id with
    | some t' =>
      rw [hu] at hordered
      have hkept := hg.ordered.stashed.kept_remove hu
      exact ⟨hordered, hg.agree, hg.named, hg.capacity,
        hg.threads.mono (fun _ _ h => h) (lookup_of_kept hkept) (le_refl _), fun h hh => lookup_electHead hg.agree hh⟩
    | none => exact hg

theorem placed_take (parent : BlockId) (hordered : Ordered (g.takeOrphansWaitingOn parent).1) :
    Placed fmt (g.takeOrphansWaitingOn parent).1 := by
  unfold takeOrphansWaitingOn at hordered ⊢
  cases hl : g.miniStore.byHash.lookup parent with
  | none => exact hg
  | some p =>
    rw [hl] at hordered
    obtain ⟨hhead, hcap, hstore, hallocated⟩ := head_take p.node.num ((g.byParent.lookup parent).getD [])
      ({ g with byParent := g.byParent.erase parent }, [])
    obtain ⟨keep, hkept, -, -⟩ := @stashMove_take _ { g with byParent := g.byParent.erase parent } hg.ordered.stashed
      ((g.byParent.lookup parent).getD []) p.node.num []
    refine hg.same hordered hstore (hhead ▸ hg.head) hcap ?_
    rw [hstore, hallocated]
    exact hg.threads.mono (fun _ _ h => h) (lookup_of_kept hkept) (le_refl _)

theorem placed_start {block : B} (hc : Orderly fmt g (.start block)) (hordered : Ordered (g.start fmt block).2)
    : Placed fmt (g.start fmt block).2 := by
  have hlink : linking fmt g (.start block) = (KhaosNode.newWithRaw fmt g.allocated block none).map .root := rfl
  unfold start at hordered ⊢
  cases hn : KhaosNode.newWithRaw fmt g.allocated block none with
  | none => exact hg
  | some n =>
    rw [hn] at hordered hlink
    have hfresh : g.miniStore.contains n.id = false := by
      obtain ⟨id, hid, hn⟩ := Option.map_eq_some_iff.1 hn
      rw [← hn]
      exact hc id hid
    refine ⟨hordered, hg.agree_insert (b := .root n) hfresh, hg.named.insert (fun q hq => by cases hq), hg.capacity,
      hg.threads.link (hg.hangs hlink), fun h hh => ?_⟩
    cases hh
    rw [lookup_insert, if_pos rfl]

end

theorem step_placed (g : Inner B) (c : Call B) (hg : Placed fmt g) (hc : Orderly fmt g c) : Placed fmt (step fmt g c) := by
  have hordered := step_ordered fmt g c hg.ordered
  cases c with
  | start block => exact placed_start hg hc hordered
  | pushWithRaw block raw held =>
    change Ordered (g.pushWithRaw fmt held block raw).2 at hordered
    show Placed fmt (g.pushWithRaw fmt held block raw).2
    rcases @pushWithRaw_cases _ fmt g _ held block raw rfl with ⟨b, hb, heq⟩ | ⟨n, pid, hserial, hnum, -, heq⟩ | heq | heq
    · rw [heq] at hordered ⊢
      exact placed_link hg hb (fresh_of_linking hb) hordered
    · rw [heq] at hordered ⊢
      exact placed_stash hg hserial hnum pid raw hordered
    · rw [heq]
      exact hg
    · rw [heq] at hordered ⊢
      exact hg.same hordered rfl hg.head rfl (hg.threads.mono (fun _ _ h => h) (fun _ _ h => h) (Nat.le_succ _))
  | takeOrphansWaitingOn parent => exact placed_take hg parent hordered
  | remove id => exact placed_remove hg id hordered
  | pop held =>
    have hsame : (g.pop held).2.miniStore = g.miniStore ∧ (g.pop held).2.miniUnlinkedStore = g.miniUnlinkedStore ∧
        (g.pop held).2.allocated = g.allocated ∧ (g.pop held).2.maxCapacity = g.maxCapacity := by
      unfold pop
      split
      · split <;> exact ⟨rfl, rfl, rfl, rfl⟩
      · exact ⟨rfl, rfl, rfl, rfl⟩
    obtain ⟨hstore, hstash, hallocated, hcap⟩ := hsame
    show Placed fmt (g.pop held).2
    refine hg.same hordered hstore hc hcap ?_
    rw [hstore, hstash, hallocated]
    exact hg.threads
  | setHead b =>
    refine ⟨hordered, hg.agree, hg.named, hg.capacity, hg.threads, fun h hh => ?_⟩
    cases hh
    exact hc
  | setMaxSize maxSize =>
    show Placed fmt (g.setMaxSize maxSize)
    unfold setMaxSize
    refine ⟨hordered, hg.agree, hg.named, ?_, hg.threads, hg.head⟩
    dsimp only [Orderly] at hc ⊢
    exact hc

theorem sound_after (fmt : BlockFormat B) (held : Nat → Bool) {calls : List (Call B)}
    (h : Each (step fmt) .new (Orderly fmt) calls)
    (hheld : ∀ n, held n.serial = true → (after (step fmt) .new calls).toKhaosDb.alive n = true) :
    Sound fmt held (after (step fmt) .new calls).toKhaosDb :=
  (History.invariant_each (I := Placed fmt) placed_new step_placed h).sound hheld

end TronGoblin.KhaosDb
