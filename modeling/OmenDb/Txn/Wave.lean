import OmenDb.Txn.Cells
import OmenDb.Txn.Publish

/-! What the build phase of a publication produces: each survivor was validated against the
published state, its records sit on the records they overwrite, and installing the group gives
every key of the wave its one writer's record. -/
namespace OmenDb.Txn

structure Puts {K : Type} (current : K → CurrentRecord) (transaction : ℕ)
    (writes : List (K × Option Bytes)) (store store' : VersionStore)
    (puts : List (K × CurrentRecord)) : Prop where
  keys : puts.map Prod.fst = writes.map Prod.fst
  put : ∀ p ∈ puts, (p.1, p.2.value) ∈ writes ∧ p.2.transaction = transaction ∧ p.2.commit = 0 ∧
    store'.Known p.2.undoHead ∧ store'.chain p.2 = p.2.entry :: store.chain (current p.1)

section Build
variable {K : Type} {current : K → CurrentRecord} {transaction : ℕ} {store store' store'' : VersionStore}

theorem Puts.extend {writes : List (K × Option Bytes)} {puts : List (K × CurrentRecord)}
    (h : Puts current transaction writes store store' puts) (hx : VersionStore.Extends store' store'') :
    Puts current transaction writes store store'' puts where
  keys := h.keys
  put p hp := by
    obtain ⟨hm, ht, hc, hk, hch⟩ := h.put p hp
    exact ⟨hm, ht, hc, hx.known hk, by rw [hx.chain hk, hch]⟩

variable {writes : List (K × Option Bytes)} {puts : List (K × CurrentRecord)}

theorem Puts.rebase (h : Puts current transaction writes store' store'' puts)
    (hx : VersionStore.Extends store store') (hk : ∀ k, store.Known (current k).undoHead) :
    Puts current transaction writes store store'' puts where
  keys := h.keys
  put p hp := by
    obtain ⟨hm, ht, hc, hk', hch⟩ := h.put p hp
    exact ⟨hm, ht, hc, hk', by rw [hch, hx.chain (hk p.1)]⟩

theorem buildPuts_extends (current : K → CurrentRecord) (transaction : ℕ)
    (writes : List (K × Option Bytes)) (store : VersionStore) :
    VersionStore.Extends store (buildPuts current transaction writes store).1 := by
  induction writes generalizing store with
  | nil => exact .refl store
  | cons p ps ih =>
    obtain ⟨k, value⟩ := p
    simp only [buildPuts]
    split
    · exact .refl store
    · next undo store' ha =>
      have hx := (appendBeforeImage_spec ha).1
      split
      · exact hx
      · exact hx.trans (ih store')

theorem buildPuts_spec (hk : ∀ k, store.Known (current k).undoHead)
    (h : (buildPuts current transaction writes store).2 = .ok puts) :
    Puts current transaction writes store (buildPuts current transaction writes store).1 puts := by
  induction writes generalizing store puts with
  | nil => cases h; exact ⟨rfl, by simp⟩
  | cons p ps ih =>
    obtain ⟨k, value⟩ := p
    simp only [buildPuts] at h ⊢
    cases ha : appendBeforeImage store (current k) with
    | error e => simp [ha] at h
    | ok q =>
      obtain ⟨undo, store₁⟩ := q
      cases he : encodeCurrent ⟨transaction, 0, undo, value⟩ with
      | error e => simp [ha, he] at h
      | ok record =>
        have hrec := encodeCurrent_eq he
        obtain ⟨hx, hundo, _⟩ := appendBeforeImage_spec ha
        simp only [ha, he] at h ⊢
        cases hr : (buildPuts current transaction ps store₁).2 with
        | error e => simp [hr, Except.map] at h
        | ok rest =>
          simp only [hr, Except.map, Except.ok.injEq] at h
          subst h
          have hrest := ih (fun k => hx.known (hk k)) hr
          have hx' := buildPuts_extends current transaction ps store₁
          refine ⟨by simp [hrest.keys], fun p hp => ?_⟩
          rcases List.mem_cons.mp hp with rfl | hp
          · subst hrec
            refine ⟨by simp, rfl, rfl, hx'.known hundo, ?_⟩
            rw [hx'.chain hundo, chain_overwrite ha]
            rfl
          · obtain ⟨hm, hrest⟩ := (hrest.rebase hx hk).put p hp
            exact ⟨List.mem_cons_of_mem _ hm, hrest⟩

end Build

structure Built (db : Db) (statuses : Statuses) (store store' : VersionStore) (m : Member) :
    Prop where
  valid : validateAgainstPublished m.staged db statuses = .ok ()
  data : Puts (fun l : Loc => decodeCurrent db.data[l]?) m.staged.transaction
    m.staged.writes.toList store store' m.dataPuts
  trees : Puts (fun tree : ℕ => decodeCurrent db.trees[tree]?) m.staged.transaction
    (m.staged.treeLifecycles.toList.map fun p => (p.1, some p.2)) store store' m.treePuts

structure Db.Known (db : Db) (store : VersionStore) : Prop where
  data : ∀ l : Loc, store.Known (decodeCurrent db.data[l]?).undoHead
  trees : ∀ tree : ℕ, store.Known (decodeCurrent db.trees[tree]?).undoHead

variable {db : Db} {store : VersionStore} {r : CurrentRecord}

theorem Db.Known.of_data (h : db.Known store) {l : Loc} (hr : db.data[l]? = some r) : store.Known r.undoHead := by
  have hk := h.data l
  rwa [hr] at hk

theorem Db.Known.of_tree (h : db.Known store) {tree : ℕ} (hr : db.trees[tree]? = some r) : store.Known r.undoHead := by
  have hk := h.trees tree
  rwa [hr] at hk

theorem Db.Known.extend {db : Db} {store store' : VersionStore} (h : db.Known store)
    (hx : VersionStore.Extends store store') : db.Known store' :=
  ⟨fun l => hx.known (h.data l), fun t => hx.known (h.trees t)⟩

theorem buildMutations_extends (staged : StagedCommit) (db : Db) (store : VersionStore) :
    VersionStore.Extends store (buildMutations staged db store).1 := by
  unfold buildMutations
  have hx := buildPuts_extends (fun l : Loc => decodeCurrent db.data[l]?) staged.transaction
    staged.writes.toList store
  dsimp only
  split
  · exact hx
  · exact hx.trans (buildPuts_extends _ _ _ _)

theorem buildMutations_spec {staged : StagedCommit} {store' : VersionStore}
    {dataPuts : List (Loc × CurrentRecord)} {treePuts : List (ℕ × CurrentRecord)}
    (hk : db.Known store) (h : buildMutations staged db store = (store', .ok (dataPuts, treePuts))) :
    Puts (fun l : Loc => decodeCurrent db.data[l]?) staged.transaction staged.writes.toList
      store store' dataPuts ∧ Puts (fun tree : ℕ => decodeCurrent db.trees[tree]?) staged.transaction
      (staged.treeLifecycles.toList.map fun p => (p.1, some p.2)) store store' treePuts := by
  unfold buildMutations at h
  dsimp only at h
  split at h
  · cases h
  · next puts hd =>
    rw [Prod.mk.injEq] at h
    obtain ⟨hs, ht⟩ := h
    have hx := buildPuts_extends (fun l : Loc => decodeCurrent db.data[l]?) staged.transaction
      staged.writes.toList store
    cases hr : (buildPuts (fun tree : ℕ => decodeCurrent db.trees[tree]?) staged.transaction
      (staged.treeLifecycles.toList.map fun p => (p.1, some p.2))
      (buildPuts (fun l : Loc => decodeCurrent db.data[l]?) staged.transaction
        staged.writes.toList store).1).2 with
    | error e => simp [hr, Except.map] at ht
    | ok rest =>
      simp only [hr, Except.map, Except.ok.injEq, Prod.mk.injEq] at ht
      obtain ⟨rfl, rfl⟩ := ht
      subst hs
      exact ⟨(buildPuts_spec hk.data hd).extend (buildPuts_extends _ _ _ _),
        (buildPuts_spec (fun t => hx.known (hk.trees t)) hr).rebase hx hk.trees⟩

structure WaveBuilt (db : Db) (statuses : Statuses) (store : VersionStore)
    (queue : List StagedCommit) (b : Build) : Prop where
  extends_store : VersionStore.Extends store b.store
  built : ∀ m ∈ b.members, Built db statuses store b.store m
  settled : (b.members.map (·.staged.transaction) ++ b.failures.map (·.1)).Perm
    (queue.map (·.transaction))
  survivors : (b.members.map (·.staged)).Sublist queue
  assigned : b.members.map (·.assigned) = List.range' (db.csn + 1) b.members.length

theorem Built.extend {db : Db} {statuses : Statuses} {store store' store'' : VersionStore}
    {m : Member} (h : Built db statuses store store' m) (hx : VersionStore.Extends store' store'') :
    Built db statuses store store'' m := ⟨h.valid, h.data.extend hx, h.trees.extend hx⟩

section Wave
variable {db : Db} {statuses : Statuses} {store : VersionStore} {queue : List StagedCommit} {b : Build}

theorem WaveBuilt.fail (h : WaveBuilt db statuses store queue b) (s : StagedCommit) (e : Error)
    {store' : VersionStore} (hx : VersionStore.Extends b.store store') :
    WaveBuilt db statuses store (queue ++ [s])
      ⟨b.members, b.failures ++ [(s.transaction, e)], store'⟩ where
  extends_store := h.extends_store.trans hx
  built m hm := (h.built m hm).extend hx
  settled := by
    simpa [← List.append_assoc] using h.settled.append_right [s.transaction]
  survivors := h.survivors.trans (List.sublist_append_left _ _)
  assigned := h.assigned

theorem buildMember_spec (hk : db.Known store) (h : WaveBuilt db statuses store queue b)
    (s : StagedCommit) : WaveBuilt db statuses store (queue ++ [s]) (buildMember db statuses b s) := by
  unfold buildMember
  split
  · exact h.fail s _ (.refl _)
  · next hv =>
    have hx := buildMutations_extends s db b.store
    split
    · next store' e hb =>
      rw [hb] at hx
      exact h.fail s _ hx
    · next store' dataPuts treePuts hb =>
      rw [hb] at hx
      obtain ⟨hd, ht⟩ := buildMutations_spec (hk.extend h.extends_store) hb
      refine ⟨h.extends_store.trans hx, fun m hm => ?_, ?_, ?_, ?_⟩
      · rcases List.mem_append.mp hm with hm | hm
        · exact (h.built m hm).extend hx
        · rw [List.mem_singleton] at hm
          subst hm
          exact ⟨hv, hd.rebase h.extends_store hk.data, ht.rebase h.extends_store hk.trees⟩
      · simp only [List.map_append, List.map_cons, List.map_nil, List.append_assoc]
        refine (List.Perm.append_left _ List.perm_append_comm).trans ?_
        rw [← List.append_assoc]
        exact h.settled.append_right _
      · simpa using h.survivors.append (List.Sublist.refl [s])
      · simp [h.assigned, List.range'_concat]
        omega

theorem buildWave_spec (hk : db.Known store) (queue : List StagedCommit) :
    WaveBuilt db statuses store queue (buildWave db statuses store queue) := by
  have main : ∀ rest done b, WaveBuilt db statuses store done b →
      WaveBuilt db statuses store (done ++ rest) (rest.foldl (buildMember db statuses) b) := by
    intro rest
    induction rest with
    | nil => intro done b h; simpa using h
    | cons s rest ih =>
      intro done b h
      simpa using ih (done ++ [s]) _ (buildMember_spec hk h s)
  have hempty : WaveBuilt db statuses store [] ⟨[], [], store⟩ :=
    ⟨.refl store, by simp, by simp, by simp, by simp⟩
  simpa [buildWave] using main queue [] _ hempty

end Wave

/-- Every version of `store'` that `store` lacks is the image of a current record. -/
def Images (db : Db) (store store' : VersionStore) : Prop :=
  ∀ (id : ℕ) (r : VersionRecord), store'.records[id]? = some r → store.records[id]? = some r ∨
    (∃ l : Loc, r = (decodeCurrent db.data[l]?).image) ∨
    ∃ tree : ℕ, r = (decodeCurrent db.trees[tree]?).image

section Images
variable {db : Db} {store store' store'' : VersionStore}

theorem Images.refl : Images db store store := fun _ _ h => .inl h

theorem Images.trans (h : Images db store store') (h' : Images db store' store'') :
    Images db store store'' := fun id r hr => (h' id r hr).elim (h id r) .inr

theorem buildPuts_images {K : Type} {current : K → CurrentRecord}
    (hc : ∀ k, (∃ l : Loc, (current k).image = (decodeCurrent db.data[l]?).image) ∨
      ∃ tree : ℕ, (current k).image = (decodeCurrent db.trees[tree]?).image)
    (transaction : ℕ) (writes : List (K × Option Bytes)) (store : VersionStore) :
    Images db store (buildPuts current transaction writes store).1 := by
  induction writes generalizing store with
  | nil => exact .refl
  | cons p ps ih =>
    obtain ⟨k, value⟩ := p
    simp only [buildPuts]
    split
    · exact .refl
    · next undo store' ha =>
      have hi : Images db store store' := fun id r hr =>
        (appendBeforeImage_image ha hr).imp_right fun (h : r = (current k).image) => h ▸ hc k
      split
      · exact hi
      · exact hi.trans (ih store')

theorem buildMutations_images (staged : StagedCommit) (db : Db) (store : VersionStore) :
    Images db store (buildMutations staged db store).1 := by
  unfold buildMutations
  have hd := @buildPuts_images db Loc (fun l : Loc => decodeCurrent db.data[l]?)
    (fun l => .inl ⟨l, rfl⟩) staged.transaction staged.writes.toList store
  dsimp only
  split
  · exact hd
  · exact hd.trans (buildPuts_images (fun tree => .inr ⟨tree, rfl⟩) _ _ _)

theorem buildWave_images (statuses : Statuses) (queue : List StagedCommit) :
    Images db store (buildWave db statuses store queue).store := by
  have turn : ∀ (b : Build) (s : StagedCommit), Images db store b.store →
      Images db store (buildMember db statuses b s).store := by
    intro b s h
    have hm := buildMutations_images s db b.store
    unfold buildMember
    split
    · exact h
    · split
      · next hb => rw [hb] at hm; exact h.trans hm
      · next hb => rw [hb] at hm; exact h.trans hm
  have main : ∀ (b : Build), Images db store b.store →
      Images db store (queue.foldl (buildMember db statuses) b).store := by
    induction queue with
    | nil => exact fun _ h => h
    | cons s rest ih => exact fun b h => ih _ (turn b s h)
  exact main ⟨[], [], store⟩ .refl

end Images

section Group
variable (db : Db) (ms : List Member)

theorem commitGroup_csn : (db.commitGroup ms).csn = db.csn + ms.length := by
  unfold Db.commitGroup
  induction ms generalizing db with
  | nil => rfl
  | cons m ms ih => rw [List.foldl_cons, ih]; simp [Db.commitMember]; omega

theorem commitGroup_data : (db.commitGroup ms).data = db.data.insertAll (ms.flatMap (·.dataPuts)) := by
  unfold Db.commitGroup
  induction ms generalizing db with
  | nil => rfl
  | cons m ms ih => rw [List.foldl_cons, ih, List.flatMap_cons, OrdMap.insertAll_append]; rfl

theorem commitGroup_trees :
    (db.commitGroup ms).trees = db.trees.insertAll (ms.flatMap (·.treePuts)) := by
  unfold Db.commitGroup
  induction ms generalizing db with
  | nil => rfl
  | cons m ms ih => rw [List.foldl_cons, ih, List.flatMap_cons, OrdMap.insertAll_append]; rfl

theorem commitGroup_statuses : (db.commitGroup ms).statuses =
    db.statuses.insertAll (ms.map fun m => (m.staged.transaction, m.assigned)) := by
  unfold Db.commitGroup
  induction ms generalizing db with
  | nil => rfl
  | cons m ms ih => rw [List.foldl_cons, ih]; rfl

theorem commitGroup_changes : (db.commitGroup ms).changes =
    db.changes.insertAll (ms.map fun m => (m.assigned, m.staged.change)) := by
  unfold Db.commitGroup
  induction ms generalizing db with
  | nil => rfl
  | cons m ms ih => rw [List.foldl_cons, ih]; rfl

theorem commitGroup_rest : (db.commitGroup ms).leases = db.leases ∧
    (db.commitGroup ms).allocator = db.allocator := by
  unfold Db.commitGroup
  induction ms generalizing db with
  | nil => exact ⟨rfl, rfl⟩
  | cons m ms ih => rw [List.foldl_cons]; exact ih _

end Group

namespace Family

variable {K : Type} {F : Family K}

def Apart (F : Family K) (commit : Member → Commit) (a b : Member) : Prop :=
  ∀ k, ¬ ((F.field k (commit a)).isSome ∧ (F.field k (commit b)).isSome)

instance (commit : Member → Commit) : Std.Symm (Apart F commit) := ⟨fun _ _ h k hk => h k hk.symm⟩

variable [LinearOrder K] {table : OrdMap K CurrentRecord} {store store' : VersionStore}

theorem installs_group {ms : List Member} (puts : Member → List (K × CurrentRecord))
    (commit : Member → Commit) (hapart : ms.Pairwise (Apart F commit))
    (hkeys : ∀ m ∈ ms, ∀ k, (F.field k (commit m)).isSome ↔ ∃ r, (k, r) ∈ puts m)
    (hput : ∀ m ∈ ms, ∀ p ∈ puts m, Put F p.1 (commit m) (decodeCurrent table[p.1]?) store store' p.2)
    (hd : ∀ m ∈ ms, (puts m).Pairwise fun a b => a.1 ≠ b.1) :
    Installs F table (table.insertAll (ms.flatMap puts)) store store' (ms.map commit).reverse where
  old k hn := by
    refine OrdMap.get_insertAll_of_notMem _ fun p hp hpk => ?_
    obtain ⟨m, hm, hp⟩ := List.mem_flatMap.mp hp
    have hw := (hkeys m hm k).mpr ⟨p.2, by rw [← hpk]; exact hp⟩
    rw [hn (commit m) (by simpa using ⟨m, hm, rfl⟩)] at hw
    simp at hw
  put k c hc hw := by
    rw [List.mem_reverse, List.mem_map] at hc
    obtain ⟨m, hm, rfl⟩ := hc
    obtain ⟨r, hr⟩ := (hkeys m hm k).mp hw
    refine ⟨r, OrdMap.get_insertAll_of_mem _ ?_ (List.mem_flatMap.mpr ⟨m, hm, hr⟩), hput m hm _ hr⟩
    refine List.pairwise_flatMap.mpr ⟨hd, hapart.imp_of_mem fun ha hb hab p hp q hq hpq => ?_⟩
    refine hab p.1 ⟨(hkeys _ ha _).mpr ⟨p.2, hp⟩, (hkeys _ hb _).mpr ⟨q.2, ?_⟩⟩
    rw [hpq]
    exact hq
  single k c hc x hx hcw hxw := by
    rw [List.mem_reverse, List.mem_map] at hc hx
    obtain ⟨a, ha, rfl⟩ := hc
    obtain ⟨b, hb, rfl⟩ := hx
    by_contra hne
    exact hapart.forall ha hb (fun h => hne (by rw [h])) k ⟨hcw, hxw⟩

end Family

end OmenDb.Txn
