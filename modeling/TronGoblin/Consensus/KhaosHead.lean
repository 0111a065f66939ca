import TronGoblin.Consensus.KhaosInv
import TronGoblin.Lib.Checked

/-!
# The head of the fork tree

How `KhaosDb` (`tron-consensus/src/khaos.rs`) chooses its head while blocks are pushed and orphans are taken.

* `links`: the blocks that a run links, in order.
* `electHead_eq`: the head that `remove` elects.
* `HeadRule`: the head is the first of the highest blocks, kept by every push (`HeadRule.link`).
* `classify_linked`: the outcome of a push that links a block.
* `head_rule`: both over every run, and that removing another block leaves the head.
-/

namespace TronGoblin

open Option KhaosStore

namespace KhaosStore

variable {B : Type} {s s' : KhaosStore B} {b h : KhaosBlock B} {id : BlockId}

/-! ## Election -/

/-- No number has an empty list. -/
def Tight (s : KhaosStore B) : Prop := ∀ n, s.byNum.lookup n ≠ some []

theorem tight_empty : (empty : KhaosStore B).Tight := fun _ h => by cases h

theorem Tight.insert (hs : s.Tight) (b : KhaosBlock B) : (s.insert b).Tight := by
  intro n
  unfold KhaosStore.insert
  rw [Assoc.lookup_insert_eq]
  split
  · simp
  · exact hs n

theorem Tight.remove (hs : s.Tight) (h : s.remove id = some s') : s'.Tight := by
  unfold KhaosStore.remove at h
  split at h
  · cases h
  · next b hb =>
    cases h
    intro n
    dsimp only
    split
    · exact hs n
    · next list hlist =>
      split
      · rw [Assoc.lookup_erase_eq]
        split
        · simp
        · exact hs n
      · next hkept =>
        rw [Assoc.lookup_insert_eq]
        split
        · intro heq
          exact hkept (by rw [some.inj heq]; rfl)
        · exact hs n

theorem Tight.pruneBelow (hs : s.Tight) (t : Int) : (s.pruneBelow t).Tight := by
  have hdrop : ∀ (ns : List Int) (s : KhaosStore B), s.Tight → (ns.foldl dropNum s).Tight := by
    intro ns
    induction ns with
    | nil => exact fun _ h => h
    | cons n ns ih =>
      intro s hs
      refine ih _ fun m => ?_
      unfold dropNum
      rw [Assoc.lookup_erase_eq]
      split
      · simp
      · exact hs m
  unfold KhaosStore.pruneBelow
  split
  · exact hs
  · exact hdrop _ s hs

theorem foldl_max_eq {ns : List Int} {best : Option Int} {m : Int} (hbest : ∀ k ∈ best, k ≤ m) (hle : ∀ n ∈ ns, n ≤ m)
    (hm : best = some m ∨ m ∈ ns) : ns.foldl (fun best n => some (max (best.getD n) n)) best = some m := by
  induction ns generalizing best with
  | nil => exact hm.resolve_right List.not_mem_nil
  | cons n ns ih =>
    have hn := hle n List.mem_cons_self
    have hmax : max (best.getD n) n ≤ m := by
      cases best with
      | none => simpa using hn
      | some k => exact Int.max_le.2 ⟨hbest k rfl, hn⟩
    refine ih (by rintro _ ⟨⟩; exact hmax) (fun k hk => hle k (List.mem_cons_of_mem n hk)) ?_
    rcases hm with rfl | hm
    · exact .inl (congrArg some (Int.max_eq_left hn))
    · rcases List.mem_cons.1 hm with rfl | hm
      · exact .inl (congrArg some (Int.le_antisymm hmax (Int.le_max_right ..)))
      · exact .inr hm

/-- The block is the first of those with the highest number. -/
structure First (s : KhaosStore B) (h : KhaosBlock B) : Prop where
  head : (s.listed h.node.num).head? = some h
  above : ∀ n, h.node.num < n → s.listed n = []

theorem electHead_eq (hs : s.Tight) (h : s.First b) : KhaosDb.electHead s = some b := by
  have hhead := h.head
  unfold listed at hhead
  obtain ⟨list, hlook⟩ : ∃ list, s.byNum.lookup b.node.num = some list := by
    cases hl : s.byNum.lookup b.node.num with
    | none =>
      rw [hl] at hhead
      cases hhead
    | some list => exact ⟨list, rfl⟩
  rw [hlook] at hhead
  have hmem : b.node.num ∈ s.byNum.keys := by
    rw [← AList.mem_keys, ← AList.lookup_isSome, hlook]
    rfl
  have hle : ∀ n ∈ s.byNum.keys, n ≤ b.node.num := by
    intro n hn
    by_contra hlt
    have hnil := h.above n (Int.not_le.1 hlt)
    obtain ⟨list, hlist⟩ := isSome_iff_exists.1 (AList.lookup_isSome.2 (AList.mem_keys.2 hn))
    rw [listed, hlist] at hnil
    exact hs n (hlist.trans (congrArg some hnil))
  unfold KhaosDb.electHead
  dsimp only
  rw [foldl_max_eq (fun _ h => by cases h) hle (.inr hmem), bind_some, hlook]
  exact hhead

theorem First.kept {keep : BlockId → Bool} (hf : s.First b) (hk : Kept keep s s') (hb : keep b.node.id = true) :
    s'.First b := by
  refine ⟨?_, fun n hn => ?_⟩
  · rw [hk.listed]
    have hhead := hf.head
    cases hl : s.listed b.node.num with
    | nil =>
      rw [hl] at hhead
      cases hhead
    | cons c rest =>
      rw [hl] at hhead
      cases hhead
      rw [List.filter_cons, if_pos hb]
      rfl
  · rw [hk.listed, hf.above n hn]
    rfl

theorem First.insert_le (hf : s.First h) (hle : b.node.num ≤ h.node.num) : (s.insert b).First h := by
  refine ⟨?_, fun n hn => ?_⟩
  · rw [listed_insert, List.head?_append, hf.head]
    rfl
  · rw [listed_insert, hf.above n hn, if_neg (by omega)]
    rfl

theorem First.insert_lt (hf : s.First h) (hlt : h.node.num < b.node.num) : (s.insert b).First b := by
  refine ⟨?_, fun n hn => ?_⟩
  · rw [listed_insert, hf.above _ hlt, if_pos rfl]
    rfl
  · rw [listed_insert, hf.above n (by omega), if_neg (by omega)]
    rfl

end KhaosStore

namespace KhaosDb

open History (after)
open KhaosStore (Kept Numbered First Tight notBelow)

variable {B : Type} {fmt : BlockFormat B} {g g' : Inner B} {c : Call B}
variable {b h : KhaosBlock (WireBlock B)}

/-! ## Links -/

def links (fmt : BlockFormat B) : Inner B → List (Call B) → List (KhaosBlock (WireBlock B))
  | _, [] => []
  | g, c :: calls => (linking fmt g c).toList ++ links fmt (step fmt g c) calls

theorem links_concat (fmt : BlockFormat B) (g : Inner B) (calls : List (Call B)) (c : Call B) :
    links fmt g (calls ++ [c]) = links fmt g calls ++ (linking fmt (after (step fmt) g calls) c).toList := by
  induction calls generalizing g with
  | nil => simp [links, after]
  | cons d calls ih =>
    rw [List.cons_append, links, links, ih, List.append_assoc]
    rfl

/-- A block is a new allocation, and linked to nothing, or to a linked block and what that one is linked to. -/
theorem linking_ancestors (hb : linking fmt g c = some b) :
    b.node.serial = g.allocated ∧ (b.ancestors = [] ∨
      ∃ pid p, b.node.parentId fmt = some pid ∧ g.miniStore.byHash.lookup pid = some p ∧
        b.node.num = p.node.num + 1 ∧ b.ancestors = p.node :: p.ancestors) := by
  cases c with
  | start block =>
    obtain ⟨n, hn, rfl⟩ := map_eq_some_iff.1 hb
    exact ⟨KhaosNode.newWithRaw_serial hn, .inl rfl⟩
  | pushWithRaw block raw held =>
    obtain ⟨n, hn, hb⟩ := bind_eq_some_iff.1 hb
    have hserial := KhaosNode.newWithRaw_serial hn
    split at hb
    · cases hb
    · split at hb
      · cases hb
        exact ⟨hserial, .inl rfl⟩
      · next pid hpid =>
        obtain ⟨p, hp, hb⟩ := bind_eq_some_iff.1 hb
        split at hb
        · next heq =>
          cases hb
          refine ⟨hserial, .inr ⟨pid, p, ?_, hp, heq, rfl⟩⟩
          unfold Inner.parentToLink at hpid
          split at hpid
          · exact (filter_eq_some_iff.1 hpid).1
          · cases hpid
        · cases hb
  | _ => cases hb

variable {held : Nat → Bool}

theorem pushWithRaw_of_linking {block : B} {raw : Option Bytes}
    (hb : linking fmt g (.pushWithRaw block raw held) = some b) :
    g.pushWithRaw fmt held block raw = (allocating g).link held b := by
  obtain ⟨n, hn, hb⟩ := bind_eq_some_iff.1 hb
  unfold Inner.pushWithRaw
  rw [hn]
  split at hb
  · cases hb
  · next hlinked =>
    refine (if_neg hlinked).trans ?_
    have hsame : Inner.parentToLink fmt { g with allocated := g.allocated + 1 } n = g.parentToLink fmt n := rfl
    rw [hsame]
    cases hpid : g.parentToLink fmt n with
    | none =>
      rw [hpid] at hb
      cases hb
      rfl
    | some pid =>
      rw [hpid] at hb
      obtain ⟨p, hp, hb⟩ := bind_eq_some_iff.1 hb
      dsimp only
      rw [hp]
      dsimp only
      split at hb
      · next heq =>
        cases hb
        rw [dif_pos heq]
        rfl
      · cases hb

/-- Along the pointers of every block of the store, numbers are those of the ids. -/
def Named (s : KhaosStore (WireBlock B)) : Prop :=
  ∀ id b, s.byHash.lookup id = some b → ∀ q ∈ b.ancestors, q.num = BlockId.height q.id

theorem lookup_of_kept {keep : BlockId → Bool} {s s' : KhaosStore (WireBlock B)} (h : Kept keep s s') (id : BlockId)
    (b : KhaosBlock (WireBlock B)) (hb : s'.byHash.lookup id = some b) : s.byHash.lookup id = some b := by
  rw [h.lookup] at hb
  split at hb
  · exact hb
  · cases hb

theorem Named.kept {s s' : KhaosStore (WireBlock B)} (hs : Named s) {keep : BlockId → Bool} (hk : Kept keep s s') :
    Named s' := fun id b hb => hs id b (lookup_of_kept hk id b hb)

theorem Named.insert {s : KhaosStore (WireBlock B)} (hs : Named s) (hb : ∀ q ∈ b.ancestors, q.num = BlockId.height q.id) :
    Named (s.insert b) := by
  intro id b' hb'
  rcases of_lookup_insert hb' with rfl | hb'
  · exact hb
  · exact hs id b' hb'

theorem Named.linking (hs : Named g.miniStore) (hnum : g.miniStore.Numbered) (hb : linking fmt g c = some b) :
    ∀ q ∈ b.ancestors, q.num = BlockId.height q.id := by
  rcases (linking_ancestors hb).2 with hnil | ⟨pid, p, -, hp, -, heq⟩
  · rw [hnil]
    exact fun q hq => by cases hq
  · rw [heq]
    rintro q (_ | ⟨_, hq⟩)
    · obtain ⟨hid, hheight, -⟩ := hnum.found hp
      rw [hheight, hid]
    · exact hs pid p hp q hq

theorem LinkedMove.named (hs : Named g.miniStore) (hnum : g.miniStore.Numbered) (hmove : LinkedMove fmt g g' c) :
    Named g'.miniStore := by
  cases hmove with
  | same h =>
    rw [h]
    exact hs
  | link b t hb h => exact (hs.insert (hs.linking hnum hb)).kept h
  | drop id hc hid h => exact hs.kept h

/-! ## The rule -/

/-- The head is the first of the highest blocks that were linked. -/
structure HeadRule (linked : List (KhaosBlock (WireBlock B))) (g : Inner B) (h : KhaosBlock (WireBlock B)) : Prop where
  ordered : Ordered g
  tight : g.miniStore.Tight
  named : Named g.miniStore
  capacity : g.maxCapacity = 1024
  head : g.head = some h
  found : g.miniStore.byHash.lookup h.node.id = some h
  first : g.miniStore.First h
  stored : ∀ id b, g.miniStore.byHash.lookup id = some b → b ∈ linked
  order : ∃ earlier later, linked = earlier ++ h :: later ∧ (∀ b ∈ earlier, b.node.num < h.node.num) ∧
    ∀ b ∈ later, b.node.num ≤ h.node.num

section Rule

variable {linked : List (KhaosBlock (WireBlock B))}

theorem HeadRule.num_le (hr : HeadRule linked g h) (hmem : b ∈ linked) : b.node.num ≤ h.node.num := by
  obtain ⟨earlier, later, heq, hbefore, hafter⟩ := hr.order
  rw [heq] at hmem
  rcases List.mem_append.1 hmem with hmem | hmem
  · exact Int.le_of_lt (hbefore b hmem)
  · rcases List.mem_cons.1 hmem with rfl | hmem
    · exact Int.le_refl _
    · exact hafter b hmem

theorem HeadRule.ne_head (hr : HeadRule linked g h) (hfresh : g.miniStore.contains b.node.id = false) :
    b.node.id ≠ h.node.id := by
  intro heq
  rw [heq, contains, hr.found] at hfresh
  cases hfresh

theorem linked_head (hh : g.head = some h) (b : KhaosBlock (WireBlock B)) :
    ((allocating g).linked b).head = some (if h.node.num < b.node.num then b else h) := by
  unfold Inner.linked Inner.promoteHeadIfHigher
  dsimp [allocating]
  rw [hh]
  dsimp only
  split <;> rfl

theorem linked_fields (g : Inner B) (b : KhaosBlock (WireBlock B)) :
    ((allocating g).linked b).maxCapacity = g.maxCapacity ∧ ((allocating g).linked b).allocated = g.allocated + 1 := by
  unfold Inner.linked Inner.promoteHeadIfHigher
  split
  · exact ⟨rfl, rfl⟩
  · split <;> exact ⟨rfl, rfl⟩

theorem notBelow_head {h' : KhaosBlock (WireBlock B)} (hh : g.head = some h') (hcap : 0 ≤ g.maxCapacity)
    (hnum : h'.node.num = BlockId.height h'.node.id) : notBelow g.threshold h'.node.id = true := by
  have hrange : -0x8000000000000000 ≤ h'.node.num := by
    rw [hnum]
    exact (Checked.fits_wrapI64 _).1
  refine decide_eq_true (.inr ?_)
  unfold Inner.threshold
  rw [hh]
  simp only [map_some, getD_some]
  omega

/-- **A linked block becomes the head exactly when it is higher.** -/
theorem HeadRule.link (hr : HeadRule linked g h) (hb : linking fmt g c = some b)
    (hfresh : g.miniStore.contains b.node.id = false) :
    HeadRule (linked ++ [b]) ((allocating g).linked b).prune (if h.node.num < b.node.num then b else h) := by
  have hhead := linked_head hr.head b
  have hcap := (linked_fields g b).1.trans hr.capacity
  have hstore : ((allocating g).linked b).miniStore = g.miniStore.insert b := (stores_promote ..).1
  have hnumbered := hr.ordered.linked.insert (linking_spec hb).1
  have hkept := kept_linked hr.ordered.linked hb
  -- the new head, whichever it is, is in the store and stays there
  have hfound : ∀ h', h' = (if h.node.num < b.node.num then b else h) →
      (g.miniStore.insert b).byHash.lookup h'.node.id = some h' ∧ (g.miniStore.insert b).First h' := by
    rintro h' rfl
    by_cases hlt : h.node.num < b.node.num
    · rw [if_pos hlt, lookup_insert, if_pos rfl]
      exact ⟨rfl, hr.first.insert_lt hlt⟩
    · rw [if_neg hlt, lookup_insert, if_neg (hr.ne_head hfresh).symm]
      exact ⟨hr.found, hr.first.insert_le (by omega)⟩
  obtain ⟨hlook, hfirst⟩ := hfound _ rfl
  have hheight := hnumbered.found hlook
  have hkeep := notBelow_head hhead (by omega) hheight.2.1
  refine ⟨?_, ?_, ?_, hcap, hhead, ?_, hfirst.kept hkept hkeep, fun id b' hb' => ?_, ?_⟩
  · obtain ⟨hl, hs⟩ : LinkedMove fmt g ((allocating g).linked b).prune c ∧ StashMove g ((allocating g).linked b).prune c :=
      ⟨linkedMove_prune hr.ordered.linked hb, stashMove_prune hr.ordered.stashed b⟩
    exact ⟨hl.numbered hr.ordered.linked, hs.numbered hr.ordered.stashed, hs.agree hr.ordered.stashed hr.ordered.agree⟩
  · show (((allocating g).linked b).miniStore.pruneBelow _).Tight
    rw [hstore]
    exact (hr.tight.insert b).pruneBelow _
  · exact (hr.named.insert (hr.named.linking hr.ordered.linked hb)).kept hkept
  · rw [hkept.lookup, if_pos hkeep]
    exact hlook
  · rcases of_lookup_insert (lookup_of_kept hkept id b' hb') with rfl | hb'
    · simp
    · exact List.mem_append_left _ (hr.stored id b' hb')
  · obtain ⟨earlier, later, heq, hbefore, hafter⟩ := hr.order
    split
    · next hlt =>
      exact ⟨linked, [], rfl, fun b' hb' => Int.lt_of_le_of_lt (hr.num_le hb') hlt, fun b' hb' => by cases hb'⟩
    · next hle =>
      refine ⟨earlier, later ++ [b], by rw [heq]; simp, hbefore, fun b' hb' => ?_⟩
      rcases List.mem_append.1 hb' with hmem | hmem
      · exact hafter b' hmem
      · rw [List.mem_singleton.1 hmem]
        omega

theorem HeadRule.same (hr : HeadRule linked g h) (hordered : Ordered g') (hstore : g'.miniStore = g.miniStore)
    (hhead : g'.head = g.head) (hcap : g'.maxCapacity = g.maxCapacity) : HeadRule linked g' h := by
  refine ⟨hordered, ?_, ?_, ?_, ?_, ?_, ?_, ?_, hr.order⟩
  · rw [hstore]
    exact hr.tight
  · rw [hstore]
    exact hr.named
  · rw [hcap]
    exact hr.capacity
  · rw [hhead]
    exact hr.head
  · rw [hstore]
    exact hr.found
  · rw [hstore]
    exact hr.first
  · rw [hstore]
    exact hr.stored

end Rule

/-! ## Outcomes -/

variable {id : BlockId}

theorem mem_of_isAncestor {cur : WireNode B} {ancestors : List (WireNode B)}
    (h : g.isAncestor held id cur ancestors = true) : id ∈ (cur :: ancestors).map (·.id) := by
  induction ancestors generalizing cur with
  | nil =>
    simpa using (beq_iff_eq.1 h).symm
  | cons p ps ih =>
    rcases Bool.or_eq_true_iff.1 h with h | h
    · rw [List.map_cons, beq_iff_eq.1 h]
      exact List.mem_cons_self
    · exact List.mem_cons_of_mem _ (ih (Bool.and_eq_true_iff.1 h).2)

/-- The outcomes, without the blocks they carry. -/
inductive OutcomeKind
  | extended
  | reorg
  | sibling
  deriving DecidableEq

def outcomeKind : PushOutcome B → OutcomeKind
  | .extended _ => .extended
  | .reorg _ _ => .reorg
  | .sibling _ => .sibling

theorem alive_of_lookup {db : KhaosDb B} {p : KhaosBlock B} (hp : db.miniStore.byHash.lookup id = some p) :
    db.alive p.node = true := by
  refine List.any_eq_true.2 ⟨p, ?_, beq_self_eq_true _⟩
  refine List.mem_append_left _ (List.mem_append_left _ (List.mem_append_left _ ?_))
  exact List.mem_map.2 ⟨⟨id, p⟩, AList.mem_lookup_iff.1 hp, rfl⟩

theorem num_lt_of_mem (b : KhaosBlock B) {q : KhaosNode B} (hq : q ∈ b.ancestors) : q.num < b.node.num := by
  have hlt : List.IsChain (fun c p => p.num < c.num) (b.node :: b.ancestors) := b.chain.imp fun c p h => by omega
  exact (List.pairwise_cons.1 hlt.pairwise).1 q hq

section Outcome

variable {linked : List (KhaosBlock (WireBlock B))} {held : Nat → Bool} {block : B} {raw : Option Bytes}

/-- The walk from a block that is higher than the head finds the head exactly if it is an ancestor: it can only be
the parent, and that one is linked. -/
theorem HeadRule.isAncestor_iff (hr : HeadRule linked g h) (hb : linking fmt g c = some b)
    (hfresh : g.miniStore.contains b.node.id = false) (hlt : h.node.num < b.node.num) (held : Nat → Bool) :
    ((allocating g).linked b).isAncestor held h.node.id b.node b.ancestors = true ↔
      h.node.id ∈ b.ancestors.map (·.id) := by
  have hne := hr.ne_head hfresh
  constructor
  · intro hwalk
    have hmem := mem_of_isAncestor hwalk
    exact (List.mem_cons.1 hmem).resolve_left hne.symm
  · intro hmem
    rcases (linking_ancestors hb).2 with hnil | ⟨pid, p, -, hp, hnum, heq⟩
    · rw [hnil] at hmem
      cases hmem
    · have hple := hr.num_le (hr.stored pid p hp)
      have hhead := (hr.ordered.linked.found hr.found).2.1
      -- an ancestor with the head's id has the head's number, and only the parent has
      have hparent : p.node.id = h.node.id := by
        rw [heq, List.map_cons] at hmem
        rcases List.mem_cons.1 hmem with hpid | hmem
        · exact hpid.symm
        · obtain ⟨q, hq, hqid⟩ := List.mem_map.1 hmem
          have hqnum := hr.named pid p hp q hq
          have hqlt := num_lt_of_mem p hq
          rw [hqid] at hqnum
          omega
      have hstore : ((allocating g).linked b).miniStore = g.miniStore.insert b := (stores_promote ..).1
      have hlook : ((allocating g).linked b).miniStore.byHash.lookup pid = some p := by
        rw [hstore, lookup_insert, if_neg ?_]
        · exact hp
        · intro hpid
          rw [← hpid, contains, hp] at hfresh
          cases hfresh
      have halive := alive_of_lookup hlook
      rw [heq]
      unfold Inner.isAncestor
      have hself : ((allocating g).linked b).isAncestor held h.node.id p.node p.ancestors = true := by
        unfold Inner.isAncestor
        cases p.ancestors <;> simp [hparent]
      rw [hself, Inner.upgrades, halive]
      simp

/-- **The outcome of a push that links a block.** -/
theorem HeadRule.outcome (hr : HeadRule linked g h) (hb : linking fmt g (.pushWithRaw block raw held) = some b)
    (hfresh : g.miniStore.contains b.node.id = false) :
    ∃ outcome, (g.pushWithRaw fmt held block raw).1 = .ok outcome ∧ outcomeKind outcome =
        if h.node.num < b.node.num then
          if h.node.id ∈ b.ancestors.map (·.id) then .extended else .reorg
        else .sibling := by
  rw [pushWithRaw_of_linking hb]
  refine ⟨_, rfl, ?_⟩
  rw [linked_head hr.head, getD_some]
  show outcomeKind (((allocating g).linked b).classifyOutcome held g.head _) = _
  rw [hr.head]
  unfold Inner.classifyOutcome
  dsimp only
  by_cases hlt : h.node.num < b.node.num
  · rw [if_pos hlt, if_pos hlt, if_neg (hr.ne_head hfresh).symm]
    have hwalk := hr.isAncestor_iff hb hfresh hlt fun n => held n || n == h.node.serial
    by_cases hmem : h.node.id ∈ b.ancestors.map (·.id)
    · rw [if_pos hmem, if_pos (hwalk.2 hmem)]
      rfl
    · rw [if_neg hmem, if_neg fun h => hmem (hwalk.1 h)]
      rfl
  · rw [if_neg hlt, if_neg hlt, if_pos rfl]
    rfl

end Outcome

/-! ## Runs -/

/-- A push, or a taking of orphans. -/
def Call.grows : Call B → Bool
  | .pushWithRaw _ _ _ | .takeOrphansWaitingOn _ => true
  | _ => false

theorem fresh_of_linking {block : B} {raw : Option Bytes} (hb : linking fmt g (.pushWithRaw block raw held) = some b) :
    g.miniStore.contains b.node.id = false := by
  rcases (linking_spec hb).2 with ⟨-, block', hc, -⟩ | ⟨hfresh, -⟩
  · cases hc
  · exact hfresh

theorem headRule_start {b₀ : B} (hstart : (Inner.new.start fmt b₀).1 = .ok ()) :
    ∃ h, HeadRule (links fmt .new [.start b₀]) (Inner.new.start fmt b₀).2 h := by
  have hordered : Ordered (Inner.new.start fmt b₀).2 := step_ordered fmt .new (.start b₀) ordered_new
  have hlinks : links fmt .new [.start b₀] =
      ((KhaosNode.newWithRaw fmt (Inner.new : Inner B).allocated b₀ none).map .root).toList := List.append_nil _
  unfold Inner.start at hordered hstart ⊢
  cases hn : KhaosNode.newWithRaw fmt (Inner.new : Inner B).allocated b₀ none with
  | none =>
    rw [hn] at hstart
    cases hstart
  | some n =>
    rw [hn] at hordered hlinks
    rw [hlinks]
    refine ⟨.root n, hordered, tight_empty.insert _, ?_, rfl, rfl, ?_, ?_, ?_, [], [], rfl, ?_, ?_⟩
    · intro id b hb
      rcases of_lookup_insert hb with rfl | hb
      · exact fun q hq => by cases hq
      · cases hb
    · rw [lookup_insert, if_pos rfl]
    · refine ⟨?_, fun n' hn' => ?_⟩
      · rw [listed_insert, if_pos rfl]
        rfl
      · rw [listed_insert, if_neg (Int.ne_of_gt hn')]
        rfl
    · intro id b hb
      rcases of_lookup_insert hb with rfl | hb
      · exact List.mem_singleton.2 rfl
      · cases hb
    · exact fun b hb => by cases hb
    · exact fun b hb => by cases hb

theorem head_stash (g : Inner B) (n : WireNode B) (pid : BlockId) (raw : Option Bytes) :
    ((allocating g).stash n pid raw).head = g.head ∧ ((allocating g).stash n pid raw).maxCapacity = g.maxCapacity ∧
      ((allocating g).stash n pid raw).allocated = g.allocated + 1 := by
  unfold Inner.stash Inner.pruneStash Inner.pruneOrphanRaw Inner.await
  cases raw <;> split <;> exact ⟨rfl, rfl, rfl⟩

theorem head_take (num : Int) (ids : List BlockId) (st : Inner B × List (B × Option Bytes)) :
    (ids.foldl (Inner.takeOrphan num) st).1.head = st.1.head ∧
      (ids.foldl (Inner.takeOrphan num) st).1.maxCapacity = st.1.maxCapacity ∧
        (ids.foldl (Inner.takeOrphan num) st).1.miniStore = st.1.miniStore ∧
          (ids.foldl (Inner.takeOrphan num) st).1.allocated = st.1.allocated := by
  induction ids generalizing st with
  | nil => exact ⟨rfl, rfl, rfl, rfl⟩
  | cons id ids ih =>
    rw [List.foldl_cons]
    obtain ⟨h₁, h₂, h₃, h₄⟩ := ih (Inner.takeOrphan num st id)
    rw [h₁, h₂, h₃, h₄]
    unfold Inner.takeOrphan
    split
    · exact ⟨rfl, rfl, rfl, rfl⟩
    · split <;> exact ⟨rfl, rfl, rfl, rfl⟩

theorem headRule_step {linked : List (KhaosBlock (WireBlock B))} (hr : HeadRule linked g h) (hc : c.grows) :
    ∃ h', HeadRule (linked ++ (linking fmt g c).toList) (step fmt g c) h' := by
  have hordered := step_ordered fmt g c hr.ordered
  cases c with
  | pushWithRaw block raw held =>
    show ∃ h', HeadRule _ (g.pushWithRaw fmt held block raw).2 h'
    change Ordered (g.pushWithRaw fmt held block raw).2 at hordered
    cases hb : linking fmt g (.pushWithRaw block raw held) with
    | some b =>
      rw [pushWithRaw_of_linking hb]
      exact ⟨_, hr.link hb (fresh_of_linking hb)⟩
    | none =>
      rw [toList_none, List.append_nil]
      refine ⟨h, ?_⟩
      rcases @pushWithRaw_cases _ fmt g _ held block raw rfl with ⟨b, hb', -⟩ | ⟨n, pid, -, -, -, heq⟩ | heq | heq
      · rw [hb] at hb'
        cases hb'
      · have hsame := head_stash g n pid raw
        rw [heq] at hordered ⊢
        exact hr.same hordered (miniStore_stash ..) hsame.1 hsame.2.1
      · rw [heq] at hordered ⊢
        exact hr
      · rw [heq] at hordered ⊢
        exact hr.same hordered rfl rfl rfl
  | takeOrphansWaitingOn parent =>
    rw [show linking fmt g (.takeOrphansWaitingOn parent) = none from rfl, toList_none, List.append_nil]
    have hsame : (g.takeOrphansWaitingOn parent).1.head = g.head ∧
        (g.takeOrphansWaitingOn parent).1.maxCapacity = g.maxCapacity ∧
          (g.takeOrphansWaitingOn parent).1.miniStore = g.miniStore := by
      unfold Inner.takeOrphansWaitingOn
      split
      · exact ⟨rfl, rfl, rfl⟩
      · exact ⟨(head_take ..).1, (head_take ..).2.1, (head_take ..).2.2.1⟩
    exact ⟨h, hr.same hordered hsame.2.2 hsame.1 hsame.2.1⟩
  | start _ => cases hc
  | remove _ => cases hc
  | pop _ => cases hc
  | setHead _ => cases hc
  | setMaxSize _ => cases hc

theorem headRule_after {b₀ : B} (hstart : (Inner.new.start fmt b₀).1 = .ok ()) {calls : List (Call B)}
    (hcalls : ∀ c ∈ calls, c.grows) :
    ∃ h, HeadRule (links fmt .new (.start b₀ :: calls)) (after (step fmt) .new (.start b₀ :: calls)) h := by
  induction calls using List.reverseRecOn with
  | nil => exact headRule_start hstart
  | append_singleton calls c ih =>
    obtain ⟨h, hr⟩ := ih fun d hd => hcalls d (List.mem_append_left _ hd)
    rw [← List.cons_append, links_concat, History.after_concat]
    exact headRule_step hr (hcalls c (by simp))

theorem HeadRule.remove {linked : List (KhaosBlock (WireBlock B))} (hr : HeadRule linked g h) (hid : id ≠ h.node.id) :
    (g.remove id).head = g.head := by
  show (g.toKhaosDb.remove id).head = g.head
  unfold KhaosDb.remove
  rw [hr.head]
  cases hs : g.miniStore.remove id with
  | some s' =>
    have hkept := hr.ordered.linked.kept_remove hs
    exact electHead_eq (hr.tight.remove hs) (hr.first.kept hkept (decide_eq_true hid.symm))
  | none =>
    dsimp only
    split
    · exact electHead_eq hr.tight hr.first
    · exact hr.head

/-- **The head rule.**  After every sequence of pushes and takings from a start block, the head is linked, and of the
blocks that were linked it is the first among those of the highest number; a push that links a block says whether the
head moved, and whether it moved on; removing any other block leaves the head. -/
theorem head_rule (fmt : BlockFormat B) {b₀ : B} (hstart : (Inner.new.start fmt b₀).1 = .ok ())
    {calls : List (Call B)} (hcalls : ∀ c ∈ calls, c.grows) :
    let g := after (step fmt) .new (.start b₀ :: calls)
    ∃ h, g.head = some h ∧ g.miniStore.byHash.lookup h.node.id = some h ∧
      (∃ earlier later, links fmt .new (.start b₀ :: calls) = earlier ++ h :: later ∧
        (∀ b ∈ earlier, b.node.num < h.node.num) ∧ (∀ b ∈ later, b.node.num ≤ h.node.num) ∧
          ∀ id b, g.miniStore.byHash.lookup id = some b → b ∈ earlier ++ h :: later) ∧
      (∀ block raw held b, linking fmt g (.pushWithRaw block raw held) = some b →
        ∃ outcome h', (g.pushWithRaw fmt held block raw).1 = .ok outcome ∧
          (g.pushWithRaw fmt held block raw).2.head = some h' ∧
            (outcomeKind outcome = .extended ↔ h'.node.id ≠ h.node.id ∧ h.node.id ∈ h'.ancestors.map (·.id)) ∧
            (outcomeKind outcome = .reorg ↔ h'.node.id ≠ h.node.id ∧ h.node.id ∉ h'.ancestors.map (·.id)) ∧
            (outcomeKind outcome = .sibling ↔ h'.node.id = h.node.id)) ∧
      ∀ id, id ≠ h.node.id → (g.remove id).head = g.head := by
  obtain ⟨h, hr⟩ := headRule_after hstart hcalls
  obtain ⟨earlier, later, heq, hbefore, hafter⟩ := hr.order
  refine ⟨h, hr.head, hr.found, ⟨earlier, later, heq, hbefore, hafter, ?_⟩, fun block raw held b hb => ?_,
    fun id hid => hr.remove hid⟩
  · rw [← heq]
    exact hr.stored
  · have hfresh := fresh_of_linking hb
    have hnext := hr.link hb hfresh
    obtain ⟨outcome, hok, hkind⟩ := hr.outcome hb hfresh
    refine ⟨outcome, if h.node.num < b.node.num then b else h, hok, ?_, ?_⟩
    · rw [pushWithRaw_of_linking hb]
      exact hnext.head
    · rw [hkind]
      by_cases hlt : h.node.num < b.node.num
      · have hne := hr.ne_head hfresh
        rw [if_pos hlt, if_pos hlt]
        by_cases hmem : h.node.id ∈ b.ancestors.map (·.id)
        · simp [hmem, hne]
        · simp [hmem, hne]
      · simp [hlt]

namespace Sample

def fork : BlockHeaderRaw := block 6 (idOf first) 4

/-- Two blocks over one. -/
def forked : List (Call BlockHeaderRaw) := [.start first, push second, push fork]

def overFork : BlockHeaderRaw := block 7 (idOf fork) 5

/-- A block over the one that is not the head takes the head over to its branch. -/
theorem head_rule_reorg :
    ∃ outcome, ((after (step format) .new forked).pushWithRaw format (fun _ => false) overFork none).1 = .ok outcome ∧
      outcomeKind outcome = .reorg := by
  have hcalls : ∀ c ∈ [push second, push fork], c.grows := by simp [push, Call.grows]
  obtain ⟨h, hhead, -, -, houtcome, -⟩ : ∃ h, (after (step format) .new forked).head = some h ∧ _ :=
    head_rule format (by decide +kernel) hcalls
  obtain ⟨b, hb⟩ := isSome_iff_exists.1 (show (linking format (after (step format) .new forked)
    (.pushWithRaw overFork none fun _ => false)).isSome by decide +kernel)
  obtain ⟨outcome, h', hok, hhead', -, hreorg, -⟩ := houtcome overFork none (fun _ => false) b hb
  have hold : (after (step format) .new forked).head.map (·.node.id) = some (idOf second) := by decide +kernel
  have hnew : ((after (step format) .new forked).pushWithRaw format (fun _ => false) overFork none).2.head.map
      (fun h => (h.node.id, h.ancestors.map (·.id))) = some (idOf overFork, [idOf fork, idOf first]) := by decide +kernel
  rw [hhead] at hold
  rw [forked, hhead'] at hnew
  have hsecond : h.node.id = idOf second := some.inj hold
  obtain ⟨hid, hancestors⟩ := Prod.mk.inj (some.inj hnew)
  refine ⟨outcome, hok, hreorg.2 ?_⟩
  rw [hid, hancestors, hsecond]
  decide +kernel

end Sample

end KhaosDb

end TronGoblin
