import TronGoblin.Consensus.KhaosPush

/-!
# The two indexes of a store

A `KhaosStore` finds blocks by hash and lists them by number.

* `Agree`: both indexes hold the same blocks with an id, without duplicates.
* `Numbered`: what holds of every store: a block is listed at the number that its id gives.
* `Kept`: what is left when some ids are dropped.  Removal (`Numbered.kept_remove`) and pruning
  (`Numbered.kept_pruneBelow`) are both of this kind, and it keeps the two properties.
-/

namespace TronGoblin

open List BlockId

variable {B : Type}

/-! ## Stores -/

namespace KhaosStore

variable {s s' : KhaosStore B} {id : BlockId} {n : Int} {b : KhaosBlock B}

/-- The blocks with this id among those listed at a number. -/
def listedAs (s : KhaosStore B) (id : BlockId) (n : Int) : List (KhaosBlock B) :=
  (s.listed n).filter (·.node.id = id)

/-- The two indexes hold the same blocks with this id: the one found by its hash, if there is one,
is listed once and at its own number. -/
def Agree (s : KhaosStore B) (id : BlockId) : Prop :=
  ∀ n, s.listedAs id n = (s.byHash.lookup id).toList.filter (·.node.num = n)

/-- Every block is at the number its id gives, and each index knows the ids of the other. -/
structure Numbered (s : KhaosStore B) : Prop where
  found : ∀ {id b}, s.byHash.lookup id = some b → b.node.id = id ∧ b.node.num = height id ∧ b ∈ s.listed (height id)
  shown : ∀ {n b}, b ∈ s.listed n → b.node.num = n ∧ n = height b.node.id ∧ s.contains b.node.id = true

/-- `s'` is what is left of `s` when only some ids are kept. -/
structure Kept (keep : BlockId → Bool) (s s' : KhaosStore B) : Prop where
  lookup : ∀ id, s'.byHash.lookup id = if keep id then s.byHash.lookup id else none
  listed : ∀ n, s'.listed n = (s.listed n).filter fun b => keep b.node.id

theorem Numbered.listedAs_eq_nil (hs : s.Numbered) (h : s.contains id = false) (n : Int) : s.listedAs id n = [] := by
  rw [listedAs, filter_eq_nil_iff]
  intro b hb hid
  rw [← of_decide_eq_true hid, (hs.shown hb).2.2] at h
  cases h

theorem numbered_empty : (KhaosStore.empty : KhaosStore B).Numbered where
  found h := by cases h
  shown h := by cases h

theorem agree_empty (id : BlockId) : (KhaosStore.empty : KhaosStore B).Agree id := fun _ => rfl

/-! ### Insertion -/

theorem lookup_insert (s : KhaosStore B) (b : KhaosBlock B) (id : BlockId) :
    (s.insert b).byHash.lookup id = if id = b.node.id then some b else s.byHash.lookup id :=
  Assoc.lookup_insert_eq ..

theorem of_lookup_insert {id : BlockId} {c : KhaosBlock B} (h : (s.insert b).byHash.lookup id = some c) :
    c = b ∨ s.byHash.lookup id = some c := by
  rw [lookup_insert] at h
  split at h
  · exact .inl (Option.some.inj h).symm
  · exact .inr h

theorem listed_insert (s : KhaosStore B) (b : KhaosBlock B) (n : Int) :
    (s.insert b).listed n = s.listed n ++ if n = b.node.num then [b] else [] := by
  unfold insert listed
  by_cases h : n = b.node.num
  · subst h
    simp
  · simp [h]

theorem contains_insert (s : KhaosStore B) (b : KhaosBlock B) (id : BlockId) :
    (s.insert b).contains id = (decide (id = b.node.id) || s.contains id) := by
  unfold contains
  rw [lookup_insert]
  by_cases h : id = b.node.id
  · simp [h]
  · simp [h]

theorem Numbered.insert (hs : s.Numbered) (hb : b.node.num = height b.node.id) :
    (s.insert b).Numbered where
  found := by
    intro id c hc
    rw [lookup_insert] at hc
    rw [listed_insert]
    by_cases hid : id = b.node.id
    · rw [if_pos hid] at hc
      cases hc
      rw [hid, ← hb]
      simp
    · rw [if_neg hid] at hc
      obtain ⟨h₁, h₂, h₃⟩ := hs.found hc
      exact ⟨h₁, h₂, mem_append_left _ h₃⟩
  shown := by
    intro n c hc
    rw [listed_insert] at hc
    rw [contains_insert]
    rcases mem_append.1 hc with hc | hc
    · obtain ⟨h₁, h₂, h₃⟩ := hs.shown hc
      exact ⟨h₁, h₂, by rw [h₃, Bool.or_true]⟩
    · by_cases hn : n = b.node.num
      · rw [if_pos hn, mem_singleton] at hc
        subst hc
        exact ⟨hn.symm, by rw [hn, hb], by simp⟩
      · rw [if_neg hn] at hc
        cases hc

theorem listedAs_insert_ne (h : id ≠ b.node.id) (n : Int) : (s.insert b).listedAs id n = s.listedAs id n := by
  have hnil : (if n = b.node.num then [b] else []).filter (·.node.id = id) = [] := by
    split
    · simp [Ne.symm h]
    · rfl
  rw [listedAs, listed_insert, filter_append, hnil, append_nil, listedAs]

theorem Agree.insert_ne (ha : s.Agree id) (h : id ≠ b.node.id) : (s.insert b).Agree id := by
  intro n
  rw [listedAs_insert_ne h, lookup_insert, if_neg h]
  exact ha n

theorem Numbered.agree_insert (hs : s.Numbered) (h : s.contains b.node.id = false) : (s.insert b).Agree b.node.id := by
  intro n
  have hnil := hs.listedAs_eq_nil h n
  rw [listedAs] at hnil
  rw [listedAs, listed_insert, filter_append, hnil, lookup_insert, if_pos rfl]
  by_cases hn : n = b.node.num
  · simp [hn]
  · simp [hn, Ne.symm hn]

/-! ### Removal -/

variable {keep : BlockId → Bool}

theorem Kept.contains (h : Kept keep s s') (id : BlockId) : s'.contains id = (keep id && s.contains id) := by
  unfold KhaosStore.contains
  rw [h.lookup]
  cases keep id <;> rfl

theorem Kept.refl (s : KhaosStore B) : Kept (fun _ => true) s s :=
  ⟨fun _ => rfl, fun _ => (filter_eq_self.2 fun _ _ => rfl).symm⟩

theorem Kept.trans {keep keep' : BlockId → Bool} {s'' : KhaosStore B} (h : Kept keep s s')
    (h' : Kept keep' s' s'') : Kept (fun id => keep id && keep' id) s s'' where
  lookup id := by
    rw [h'.lookup, h.lookup]
    cases keep id <;> cases keep' id <;> rfl
  listed n := by
    rw [h'.listed, h.listed, filter_filter]
    congr 1
    funext b
    exact Bool.and_comm ..

theorem Kept.listedAs (h : Kept keep s s') (id : BlockId) (n : Int) :
    s'.listedAs id n = if keep id then s.listedAs id n else [] := by
  unfold KhaosStore.listedAs
  rw [h.listed, filter_filter]
  by_cases hk : keep id = true
  · rw [if_pos hk]
    refine filter_congr fun b _ => ?_
    by_cases hid : b.node.id = id
    · simp [hid, hk]
    · simp [hid]
  · rw [if_neg hk, filter_eq_nil_iff]
    intro b _ hb
    obtain ⟨hid, hkeep⟩ := Bool.and_eq_true_iff.1 hb
    rw [of_decide_eq_true hid] at hkeep
    exact hk hkeep

theorem Kept.agree (h : Kept keep s s') (ha : keep id = true → s.Agree id) : s'.Agree id := by
  intro n
  rw [h.listedAs, h.lookup]
  by_cases hk : keep id = true
  · rw [if_pos hk, if_pos hk]
    exact ha hk n
  · rw [if_neg hk, if_neg hk]
    rfl

theorem Kept.numbered (h : Kept keep s s') (hs : s.Numbered) : s'.Numbered where
  found := by
    intro id b hb
    rw [h.lookup] at hb
    by_cases hk : keep id = true
    · rw [if_pos hk] at hb
      obtain ⟨hid, hnum, hmem⟩ := hs.found hb
      refine ⟨hid, hnum, ?_⟩
      rw [h.listed, mem_filter]
      exact ⟨hmem, by rw [hid, hk]⟩
    · rw [if_neg hk] at hb
      cases hb
  shown := by
    intro n b hb
    rw [h.listed, mem_filter] at hb
    obtain ⟨hmem, hk⟩ := hb
    obtain ⟨h₁, h₂, h₃⟩ := hs.shown hmem
    exact ⟨h₁, h₂, by rw [h.contains, hk, h₃]; rfl⟩

theorem Numbered.kept_remove (hs : s.Numbered) (h : s.remove id = some s') :
    Kept (fun id' => decide (id' ≠ id)) s s' := by
  unfold KhaosStore.remove at h
  cases hl : s.byHash.lookup id with
  | none =>
    rw [hl] at h
    cases h
  | some b =>
    obtain ⟨hid, hnum, -⟩ := hs.found hl
    rw [hl] at h
    have hs' := Option.some.inj h
    refine ⟨fun id' => ?_, fun n => ?_⟩
    · rw [← hs', Assoc.lookup_erase_eq]
      by_cases heq : id' = id
      · simp [heq]
      · simp [heq]
    · -- blocks with this id are listed at no other number
      have helse : n ≠ b.node.num → ((s.listed n).filter fun c => decide (c.node.id ≠ id)) = s.listed n := by
        intro hn
        refine filter_eq_self.2 fun c hc => decide_eq_true fun hcid => hn ?_
        rw [hnum, (hs.shown hc).2.1, hcid]
      rw [← hs', listed]
      cases hb : s.byNum.lookup b.node.num with
      | none =>
        by_cases hn : n = b.node.num
        · rw [listed, hn, hb]
          rfl
        · rw [helse hn, listed]
      | some list =>
        dsimp only
        have hfilter : n = b.node.num → (s.listed n).filter (fun c => decide (c.node.id ≠ id)) =
            list.filter fun c => decide (c.node.id ≠ b.node.id) := by
          intro hn
          rw [listed, hn, hb, hid]
          rfl
        by_cases hn : n = b.node.num
        · rw [hfilter hn, hn]
          split
          · rename_i hempty
            rw [AList.lookup_erase, isEmpty_iff.1 hempty]
            rfl
          · rw [AList.lookup_insert]
            rfl
        · rw [helse hn]
          split
          · rw [AList.lookup_erase_ne hn, listed]
          · rw [AList.lookup_insert_ne hn, listed]

/-! ### Pruning -/

theorem lookup_eraseAll (l : List (KhaosBlock B)) (t : Assoc.Table BlockId (KhaosBlock B))
    (id : BlockId) : (l.foldl (fun t b => t.erase b.node.id) t).lookup id =
      if id ∈ l.map (·.node.id) then none else t.lookup id := by
  induction l generalizing t with
  | nil => rfl
  | cons b l ih =>
    rw [foldl_cons, ih, Assoc.lookup_erase_eq, map_cons]
    by_cases hid : id = b.node.id
    · simp [hid]
    · simp [hid]

theorem Numbered.kept_dropNum (hs : s.Numbered) (n : Int) :
    Kept (fun id => decide (height id ≠ n)) s (s.dropNum n) where
  lookup id := by
    rw [dropNum, lookup_eraseAll]
    by_cases hn : height id = n
    · have hkeep : decide (height id ≠ n) = false := decide_eq_false (not_not_intro hn)
      rw [hkeep, if_neg Bool.false_ne_true]
      split
      · rfl
      · -- a block found by its hash is listed at its number
        rename_i hmem
        cases hl : s.byHash.lookup id with
        | none => rfl
        | some b =>
          obtain ⟨hid, -, hb⟩ := hs.found hl
          rw [hn] at hb
          exact absurd (mem_map.2 ⟨b, hb, hid⟩) hmem
    · have hkeep : decide (height id ≠ n) = true := decide_eq_true hn
      rw [hkeep, if_pos rfl, if_neg]
      intro hmem
      obtain ⟨b, hb, hid⟩ := mem_map.1 hmem
      rw [← hid] at hn
      exact hn (hs.shown hb).2.1.symm
  listed m := by
    have hheight : ∀ b ∈ s.listed m, height b.node.id = m :=
      fun b hb => (hs.shown hb).2.1.symm
    unfold dropNum
    rw [listed]
    rw [Assoc.lookup_erase_eq]
    by_cases hm : m = n
    · rw [if_pos hm]
      refine (filter_eq_nil_iff.2 fun b hb => ?_).symm
      rw [hheight b hb]
      simp [hm]
    · rw [if_neg hm]
      refine (filter_eq_self.2 fun b hb => ?_).symm
      rw [hheight b hb]
      exact decide_eq_true hm

theorem Numbered.kept_dropNums (hs : s.Numbered) (ns : List Int) :
    Kept (fun id => decide (height id ∉ ns)) s (ns.foldl dropNum s) := by
  induction ns generalizing s with
  | nil => simpa using Kept.refl s
  | cons n ns ih =>
    have hdrop := hs.kept_dropNum n
    have hrest := hdrop.trans (ih (hdrop.numbered hs))
    have hkeep : (fun id => decide (height id ∉ n :: ns)) = fun id =>
        decide (height id ≠ n) && decide (height id ∉ ns) := by
      funext id
      rw [← Bool.decide_and]
      simp [mem_cons, not_or]
    rw [hkeep]
    exact hrest

/-- The ids that pruning below `t` keeps. -/
def notBelow (t : Int) (id : BlockId) : Bool := decide (t ≤ 0 ∨ t ≤ height id)

theorem Numbered.height_mem_keys (hs : s.Numbered) (h : s.contains id = true) : height id ∈ s.byNum.keys := by
  obtain ⟨b, hb⟩ := Option.isSome_iff_exists.1 h
  have hmem := (hs.found hb).2.2
  rw [← AList.mem_keys, ← AList.lookup_isSome]
  unfold listed at hmem
  cases hl : s.byNum.lookup (height id) with
  | none =>
    rw [hl] at hmem
    cases hmem
  | some l => rfl

theorem Numbered.kept_pruneBelow (hs : s.Numbered) (t : Int) : Kept (notBelow t) s (s.pruneBelow t) := by
  unfold pruneBelow
  split
  · rename_i ht
    have hkeep : notBelow t = fun _ => true := funext fun id => decide_eq_true (.inl ht)
    rw [hkeep]
    exact .refl s
  · rename_i ht
    have hdrop := hs.kept_dropNums (s.byNum.keys.filter (· < t))
    refine ⟨fun id => ?_, fun n => ?_⟩
    · rw [hdrop.lookup]
      cases hl : s.byHash.lookup id with
      | none => simp
      | some b =>
        have hcontains : s.contains id = true := by
          rw [contains, hl]
          rfl
        have hkey := hs.height_mem_keys hcontains
        simp [notBelow, hkey, ht]
    · rw [hdrop.listed]
      refine filter_congr fun b hb => ?_
      have hkey := hs.height_mem_keys (hs.shown hb).2.2
      simp [notBelow, hkey, ht]

end KhaosStore

end TronGoblin
