import OmenDb.Txn.Cells
import OmenDb.Txn.Maintenance

/-! What collection, compaction and reopening do to a table that tracks a history. Collection
freezes the commit of every current record and clears the undo heads that no protected snapshot
needs; compaction then drops the unmarked versions and the statuses only they referred to. -/
namespace OmenDb

namespace VersionStore

variable {store : VersionStore}

theorem mem_versionsFrom (head : Option ℕ) (hk : store.Known head) :
    ∀ p ∈ store.versionsFrom head, store.records[p.1]? = some p.2 := by
  refine walk_induction (P := fun head => ∀ p ∈ store.versionsFrom head,
    store.records[p.1]? = some p.2) ?nil ?cons head hk
  case nil => simp
  case cons =>
    intro id v hv ih p hp
    rw [versionsFrom_some hv] at hp
    rcases List.mem_cons.mp hp with rfl | hp
    · exact hv
    · exact ih p hp

def below (store : VersionStore) (head : Option ℕ) : List Entry :=
  (store.versionsFrom head).map fun p => p.2.entry

theorem chain_eq (r : CurrentRecord) : store.chain r = r.entry :: store.below r.undoHead := rfl

theorem retain_below (R : Finset ℕ) {head : Option ℕ} (hk : store.Known head) :
    (store.retain R).below head =
      ((store.versionsFrom head).takeWhile fun p => decide (p.1 ∈ R)).map fun p => p.2.entry := by
  have h := congrArg (List.map Prod.snd) (retain_versionsFrom R head hk)
  simpa [tag, below, Function.comp_def] using h

theorem reopen_below {durable : ℕ} {head : Option ℕ} (hk : store.Known head)
    (hd : ∀ id, head = some id → id < durable) :
    (store.reopen durable).below head = store.below head := by
  simp [below, reopen_versionsFrom head hk hd]

theorem retainCurrentChain_spec {statuses : Statuses} {current : CurrentRecord} {w : Option ℕ}
    {retained r : Finset ℕ} (hk : store.Known current.undoHead) {n : ℕ}
    (hn : resolveCommit statuses current.transaction current.commit = .ok n)
    (h : store.retainCurrentChain statuses current w retained = .ok r) :
    retained ⊆ r ∧ ∀ v, w = some v → v < n →
      ∀ p ∈ VersionChain.cut (versionStamp statuses) v (store.versionsFrom current.undoHead),
        p.1 ∈ r ∧ (versionStamp statuses p).isSome := by
  unfold retainCurrentChain at h
  cases w with
  | none =>
    obtain ⟨_, _, h⟩ := bind_eq_ok.mp h
    cases h
    exact ⟨subset_rfl, by simp⟩
  | some v =>
    obtain ⟨m, hm, h⟩ := bind_eq_ok.mp h
    rw [hn] at hm
    cases hm
    split at h
    · cases h
      refine ⟨subset_rfl, fun v' hv hlt => ?_⟩
      cases hv
      omega
    · have hmarks := retainFrom_marks _ hk _ _ _ le_rfl h
      refine ⟨hmarks.mono, fun v' hv _ => ?_⟩
      cases hv
      exact hmarks.cut

end VersionStore

namespace Txn

/-- What one pass decided for a record: its rewrite, and that the versions a snapshot at the
watermark can reach are retained. -/
structure Collected (store : VersionStore) (statuses : Statuses) (w : Option ℕ) (R : Finset ℕ)
    (current record : CurrentRecord) (n : ℕ) : Prop where
  stamped : stamp statuses current.entry = some n
  rewrite : record = frozen w current n
  marked : ∀ v, w = some v → v < n →
    ∀ p ∈ VersionChain.cut (VersionStore.versionStamp statuses) v
        (store.versionsFrom current.undoHead), p.1 ∈ R

variable {store : VersionStore} {statuses : Statuses} {w : Option ℕ} {current record : CurrentRecord} {n : ℕ}

theorem Collected.mono {R R' : Finset ℕ}
    (h : Collected store statuses w R current record n) (hR : R ⊆ R') :
    Collected store statuses w R' current record n :=
  { h with marked := fun v hv hlt p hp => hR (h.marked v hv hlt p hp) }

theorem stamp_of_resolve {e : Entry}
    (h : resolveCommit statuses e.transaction e.commit = .ok n) : stamp statuses e = some n := by
  simp [stamp, h, Except.toOption]

theorem collectRecord_spec {retained r : Finset ℕ} (hk : store.Known current.undoHead)
    (h : collectRecord store statuses w current retained = .ok (r, record)) :
    retained ⊆ r ∧ ∃ n, Collected store statuses w r current record n := by
  unfold collectRecord at h
  obtain ⟨r', hr, h⟩ := bind_eq_ok.mp h
  obtain ⟨n, hn, h⟩ := bind_eq_ok.mp h
  have hrw : r' = r ∧ record = frozen w current n := by
    dsimp only at h
    split at h
    · next heq => cases h; exact ⟨rfl, heq.symm⟩
    · obtain ⟨rec, hrec, h⟩ := bind_eq_ok.mp h
      cases h
      exact ⟨rfl, encodeCurrent_eq hrec⟩
  obtain ⟨rfl, hrw⟩ := hrw
  obtain ⟨hsub, hmarked⟩ := VersionStore.retainCurrentChain_spec hk hn hr
  exact ⟨hsub, n, stamp_of_resolve hn, hrw, fun v hv hlt p hp => (hmarked v hv hlt p hp).1⟩

section Kept
variable {store : VersionStore} {statuses statuses' : Statuses} {w : Option ℕ} {R : Finset ℕ}
  {current record : CurrentRecord} {n v s : ℕ}

/-- Pruning spares the statuses that retained versions still refer to. -/
def Spares (store : VersionStore) (R : Finset ℕ) (statuses statuses' : Statuses) : Prop :=
  ∀ id ∈ R, ∀ v, store.records[id]? = some v → v.commit = 0 →
    statuses'[v.transaction]? = statuses[v.transaction]?

theorem Spares.stamp_eq (h : Spares store R statuses statuses') {p : ℕ × VersionRecord}
    (hp : p.1 ∈ R) (hget : store.records[p.1]? = some p.2) :
    stamp statuses' p.2.entry = stamp statuses p.2.entry := by
  by_cases h0 : p.2.commit = 0
  · by_cases ht : p.2.transaction = 0
    · rw [stamp_of_system ht, stamp_of_system ht]
    · rw [stamp_of_zero h0 ht, stamp_of_zero h0 ht]
      exact h p.1 hp p.2 hget h0
  · rw [stamp_of_ne_zero h0, stamp_of_ne_zero h0]

theorem prefix_takeWhile {α : Type} {p : α → Bool} {l m : List α} (h : m <+: l)
    (hm : ∀ a ∈ m, p a = true) : m <+: l.takeWhile p := by
  obtain ⟨t, rfl⟩ := h
  rw [List.takeWhile_append_of_pos hm]
  exact List.prefix_append _ _

theorem Collected.visible_compacted (hc : Collected store statuses (some v) R current record n)
    (hk : store.Known current.undoHead) (hlt : v < n) (hs : v ≤ s)
    (hst : Spares store R statuses statuses') :
    VersionChain.visible (stamp statuses') s ((store.retain R).below current.undoHead) =
      VersionChain.visible (stamp statuses) s (store.below current.undoHead) := by
  have hkeep : ∀ e ∈ (store.retain R).below current.undoHead,
      stamp statuses' e = stamp statuses e := by
    intro e he
    rw [VersionStore.retain_below R hk] at he
    obtain ⟨p, hp, rfl⟩ := List.mem_map.mp he
    exact hst.stamp_eq (by simpa using List.mem_takeWhile_imp hp)
      (VersionStore.mem_versionsFrom _ hk p ((List.takeWhile_prefix _).subset hp))
  rw [VersionChain.visible_congr hkeep, VersionStore.retain_below R hk]
  refine VersionChain.visible_between hs ((List.takeWhile_prefix _).map _) ?_
  rw [VersionStore.below, VersionChain.cut_map]
  refine (prefix_takeWhile (VersionChain.cut_prefix _ _) fun p hp => ?_).map _
  simpa using hc.marked v rfl hlt p hp

end Kept

section Collect
variable {K : Type} [LinearOrder K] {store : VersionStore} {statuses : Statuses} {w : Option ℕ}

theorem collect_spec {l : List (K × CurrentRecord)} {retained R : Finset ℕ}
    {rewrites rewrites' : OrdMap K CurrentRecord} (hd : l.Pairwise fun a b => a.1 ≠ b.1)
    (hk : ∀ p ∈ l, store.Known p.2.undoHead)
    (h : collect store statuses w l retained rewrites = .ok (R, rewrites')) :
    retained ⊆ R ∧ (∀ k : K, (∀ p ∈ l, p.1 ≠ k) → rewrites'[k]? = rewrites[k]?) ∧
    ∀ p ∈ l, ∃ record n, Collected store statuses w R p.2 record n ∧
      rewrites'[p.1]? = if record = p.2 then rewrites[p.1]? else some record := by
  induction l generalizing retained rewrites with
  | nil => cases h; simp
  | cons p ps ih =>
    obtain ⟨k, current⟩ := p
    obtain ⟨hp, hps⟩ := List.pairwise_cons.mp hd
    obtain ⟨⟨r, record⟩, hr, h⟩ := bind_eq_ok.mp h
    obtain ⟨hsub, n, hc⟩ := collectRecord_spec (hk (k, current) (by simp)) hr
    obtain ⟨hsub', hother, hmem⟩ := ih hps (fun q hq => hk q (by simp [hq])) h
    refine ⟨hsub.trans hsub', fun j hj => ?_, fun q hq => ?_⟩
    · rw [hother j fun q hq => hj q (by simp [hq])]
      split
      · rfl
      · rw [OrdMap.get_insert_of_ne _ _ (hj (k, current) (by simp))]
    · rcases List.mem_cons.mp hq with rfl | hq
      · refine ⟨record, n, hc.mono hsub', ?_⟩
        rw [hother k fun q hq => (hp q hq).symm]
        split <;> simp
      · obtain ⟨record', n', hc', hw⟩ := hmem q hq
        refine ⟨record', n', hc', ?_⟩
        rw [hw]
        split
        · split
          · rfl
          · rw [OrdMap.get_insert_of_ne _ _ (hp q hq)]
        · rfl

/-- A collected table: every record is rewritten to its frozen form. -/
structure Collects (store : VersionStore) (statuses : Statuses) (w : Option ℕ) (R : Finset ℕ)
    (table table' : OrdMap K CurrentRecord) : Prop where
  absent : ∀ k : K, table[k]? = none → table'[k]? = none
  record : ∀ (k : K) (r : CurrentRecord), table[k]? = some r →
    ∃ r' n, table'[k]? = some r' ∧ Collected store statuses w R r r' n

theorem Collects.rewritten {R : Finset ℕ} {table table' : OrdMap K CurrentRecord} {k : K} {r' : CurrentRecord}
    (h : Collects store statuses w R table table') (hr' : table'[k]? = some r') :
    ∃ r n, table[k]? = some r ∧ r' = frozen w r n := by
  cases hr : table[k]? with
  | none => rw [h.absent k hr] at hr'; cases hr'
  | some r =>
    obtain ⟨r'', n, hr'', hcol⟩ := h.record k r hr
    rw [hr'] at hr''
    cases hr''
    exact ⟨r, n, rfl, hcol.rewrite⟩

theorem Collects.mono {R R' : Finset ℕ} {table table' : OrdMap K CurrentRecord}
    (h : Collects store statuses w R table table') (hR : R ⊆ R') :
    Collects store statuses w R' table table' where
  absent := h.absent
  record k r hr := by
    obtain ⟨r', n, hr', hc⟩ := h.record k r hr
    exact ⟨r', n, hr', hc.mono hR⟩

theorem collect_collects {table rewrites : OrdMap K CurrentRecord} {retained R : Finset ℕ}
    (hk : ∀ (k : K) (r : CurrentRecord), table[k]? = some r → store.Known r.undoHead)
    (h : collect store statuses w table.toList retained ∅ = .ok (R, rewrites)) :
    retained ⊆ R ∧ Collects store statuses w R table (table.insertAll rewrites.toList) := by
  obtain ⟨hsub, hother, hmem⟩ := collect_spec table.distinct_toList
    (fun p hp => hk p.1 p.2 ((OrdMap.mem_toList _ _ _).mp hp)) h
  refine ⟨hsub, fun k hn => ?_, fun k r hr => ?_⟩
  · rw [OrdMap.get_insertAll_toList, hother k, OrdMap.get_empty, hn]
    · rfl
    · intro p hp hpk
      have := (OrdMap.mem_toList table p.1 p.2).mp hp
      simp [hpk, hn] at this
  · obtain ⟨record, n, hc, hw⟩ := hmem (k, r) ((OrdMap.mem_toList _ _ _).mpr hr)
    refine ⟨record, n, ?_, hc⟩
    rw [OrdMap.get_insertAll_toList, hw]
    split
    · next heq => rw [OrdMap.get_empty, Option.none_or, hr]; exact congrArg _ heq.symm
    · rfl

end Collect

theorem unfrozenOf_spec {ids : List ℕ} {U : Finset ℕ} (h : unfrozenOf store ids = .ok U) :
    ∀ id ∈ ids, ∃ v, store.records[id]? = some v ∧ (v.commit = 0 → v.transaction ∈ U) := by
  induction ids generalizing U with
  | nil => simp
  | cons i is ih =>
    obtain ⟨v, hv, h⟩ := bind_eq_ok.mp h
    obtain ⟨U', hU', h⟩ := bind_eq_ok.mp h
    cases h
    have hget : store.records[i]? = some v := by
      unfold VersionStore.get at hv
      split at hv
      · next hr => cases hv; exact hr
      · cases hv
    intro id hid
    rcases List.mem_cons.mp hid with rfl | hid
    · exact ⟨v, hget, fun h0 => by simp [h0]⟩
    · obtain ⟨x, hx, hU⟩ := ih hU' id hid
      refine ⟨x, hx, fun h0 => ?_⟩
      split
      · exact Finset.mem_insert_of_mem (hU h0)
      · exact hU h0

namespace Family

variable {K : Type} {F : Family K} {k : K} {statuses statuses' : Statuses}
  {store store' : VersionStore} {guarded : ℕ → Prop} {history : List Commit}
  {record : CurrentRecord} {csn n : ℕ}

theorem Cell.freeze (h : F.Cell k statuses store guarded history record) (head : Option ℕ)
    (hn : stamp statuses record.entry = some n) (hpos : 0 < n) (hk : store'.Known head)
    (hpre : store'.below head <+: store.below record.undoHead)
    (hvis : ∀ s, guarded s → s < n → VersionChain.visible (stamp statuses') s (store'.below head) =
      VersionChain.visible (stamp statuses) s (store.below record.undoHead)) :
    F.Cell k statuses' store' guarded history { record with commit := n, undoHead := head } where
  known := hk
  visible s hs := by
    obtain ⟨e, he, ha⟩ := h.visible s hs
    have hstamp : stamp statuses' ⟨record.transaction, n, record.value⟩ = some n :=
      stamp_of_ne_zero hpos.ne'
    rw [VersionStore.chain_eq] at he ⊢
    by_cases hle : n ≤ s
    · rw [VersionChain.visible_cons_of_le _ hn hle] at he
      cases he
      exact ⟨_, VersionChain.visible_cons_of_le _ hstamp hle, ha⟩
    · rw [VersionChain.visible_cons_of_lt _ hn (by omega)] at he
      refine ⟨e, ?_, ha⟩
      exact (VersionChain.visible_cons_of_lt _ hstamp (by omega)).trans
        ((hvis s hs (by omega)).trans he)
  sourced e he hc ht := by
    rw [VersionStore.chain_eq] at he
    rcases List.mem_cons.mp he with rfl | he
    · exact absurd hc hpos.ne'
    · exact h.sourced e (by rw [VersionStore.chain_eq]; exact List.mem_cons_of_mem _ (hpre.subset he))
        hc ht
  ordered := by
    have ho := h.ordered
    rw [VersionStore.chain_eq] at ho ⊢
    obtain ⟨hhead, htail⟩ := List.pairwise_cons.mp ho
    exact List.pairwise_cons.mpr ⟨fun b hb => hhead b (hpre.subset hb), htail.sublist hpre.sublist⟩

variable [LinearOrder K] {table table' : OrdMap K CurrentRecord} {w : Option ℕ} {R : Finset ℕ}

def Covers (w : Option ℕ) (csn : ℕ) (guarded : ℕ → Prop) : Prop :=
  ∀ s, guarded s → csn ≤ s ∨ ∃ v, w = some v ∧ v ≤ s

theorem Tracks.stamp_bounds (h : F.Tracks table statuses store guarded history csn)
    (hpos : ∀ c ∈ history, 0 < c.csn) (hr : table[k]? = some record)
    (hn : stamp statuses record.entry = some n) : 0 < n ∧ n ≤ csn := by
  cases hl : lastCommit (F.field k) history with
  | none => simp [h.absent k hl] at hr
  | some c =>
    obtain ⟨r, hr', hh⟩ := h.head k c hl
    rw [hr] at hr'
    cases hr'
    obtain ⟨m, hm, hlo, hhi, _⟩ := hh.stamped
    rw [hn] at hm
    cases hm
    exact ⟨(hpos c (lastCommit_mem hl)).trans_le hlo, hhi⟩

theorem not_cleared {s : ℕ} (hcov : Covers w csn guarded) (hs : guarded s) (hn : n ≤ csn)
    (hlt : s < n) : ∃ v, w = some v ∧ v ≤ s ∧ (w.all fun v => decide (n ≤ v)) = false := by
  rcases hcov s hs with h | ⟨v, rfl, hv⟩
  · omega
  · exact ⟨v, rfl, hv, by simp; omega⟩

section

variable (h : F.Tracks table statuses store guarded history csn)
include h

theorem Tracks.frozen (hpos : ∀ c ∈ history, 0 < c.csn) (hc : Collects store statuses w R table table')
    (hcell : ∀ (k : K) (r : CurrentRecord) (n : ℕ), table[k]? = some r → 0 < n → n ≤ csn →
      Collected store statuses w R r (frozen w r n) n →
      F.Cell k statuses' store' guarded history (frozen w r n)) :
    F.Tracks table' statuses' store' guarded history csn where
  cell k := by
    cases hr : table[k]? with
    | none =>
      have habs := h.cell k
      rw [hr] at habs
      rw [hc.absent k hr]
      refine ⟨VersionStore.known_none, fun s hs => ?_, fun e he _ ht => ?_, by
        rw [decodeCurrent, chain_absent]; simp⟩
      · obtain ⟨e, he, ha⟩ := habs.visible s hs
        have hst : ∀ st : Statuses, VersionChain.visible (stamp st) s [⟨0, 0, none⟩] =
            some (some ⟨0, 0, none⟩) := fun st =>
          VersionChain.visible_cons_of_le _ (stamp_of_system rfl) (Nat.zero_le s)
        rw [decodeCurrent, chain_absent, hst] at he
        cases he
        exact ⟨_, hst _, ha⟩
      · rw [decodeCurrent, chain_absent, List.mem_singleton] at he
        subst he
        exact absurd rfl ht
    | some r =>
      obtain ⟨r', n, hr', hcol⟩ := hc.record k r hr
      obtain ⟨h0, hle⟩ := h.stamp_bounds hpos hr hcol.stamped
      have hrw := hcol.rewrite
      subst hrw
      rw [hr']
      exact hcell k r n hr h0 hle hcol
  absent k hl := hc.absent k (h.absent k hl)
  head k c hl := by
    obtain ⟨r, hr, hh⟩ := h.head k c hl
    obtain ⟨r', n, hr', hcol⟩ := hc.record k r hr
    obtain ⟨h0, _⟩ := h.stamp_bounds hpos hr hcol.stamped
    obtain ⟨m, hm, hlo, hhi, hx⟩ := hh.stamped
    rw [hcol.stamped] at hm
    cases hm
    refine ⟨r', hr', ?_⟩
    rw [hcol.rewrite]
    exact ⟨hh.transaction, hh.value, n, stamp_of_ne_zero h0.ne', hlo, hhi, hx⟩

theorem Tracks.collect (hpos : ∀ c ∈ history, 0 < c.csn) (hc : Collects store statuses w R table table')
    (hcov : Covers w csn guarded) : F.Tracks table' statuses store guarded history csn := by
  refine h.frozen hpos hc fun k r n hr h0 hle hcol => ?_
  have hcell := h.cell k
  rw [hr] at hcell
  refine hcell.freeze _ hcol.stamped h0 ?_ ?_ ?_
  · split
    · exact VersionStore.known_none
    · exact hcell.known
  · split
    · exact List.nil_prefix
    · exact List.prefix_rfl
  · intro s hs hlt
    obtain ⟨_, _, _, hno⟩ := not_cleared hcov hs hle hlt
    simp only [hno, Bool.false_eq_true, if_false]
    rfl

/-- Compaction and status pruning keep every protected answer: the retained part of an uncleared
chain still holds everything a snapshot at the watermark can reach. -/
theorem Tracks.compact (hpos : ∀ c ∈ history, 0 < c.csn) (hc : Collects store statuses w R table table')
    (hcov : Covers w csn guarded) (hst : Spares store R statuses statuses') :
    F.Tracks table' statuses' (store.retain R) guarded history csn := by
  refine h.frozen hpos hc fun k r n hr h0 hle hcol => ?_
  have hcell := h.cell k
  rw [hr] at hcell
  have hknown : store.Known r.undoHead := hcell.known
  refine hcell.freeze _ hcol.stamped h0 ?_ ?_ ?_
  · split
    · exact VersionStore.known_none
    · next hno =>
      -- an uncleared record has its newest version in the cut
      intro id hid
      obtain ⟨v, hv⟩ := hknown id hid
      cases w with
      | none => simp at hno
      | some v' =>
        have hlt : v' < n := by simpa using hno
        have hcut : (id, v) ∈ VersionChain.cut (VersionStore.versionStamp statuses) v'
            (store.versionsFrom r.undoHead) := by
          rw [hid, VersionStore.versionsFrom_some hv]
          simp only [VersionChain.cut]
          split <;> [simp; (split <;> simp)]
        exact ⟨_, VersionStore.retain_get R hv (hcol.marked v' rfl hlt _ hcut)⟩
  · split
    · exact List.nil_prefix
    · rw [VersionStore.retain_below R hknown]
      exact (List.takeWhile_prefix _).map _
  · intro s hs hlt
    obtain ⟨v, rfl, hv, hno⟩ := not_cleared hcov hs hle hlt
    simp only [hno, Bool.false_eq_true, if_false]
    exact hcol.visible_compacted hknown (by omega) hv hst

/-- Reopening keeps the newest version of every key, whatever statuses were left, as long as
each head still resolves. -/
theorem Tracks.restart {guarded' : ℕ → Prop} {store' : VersionStore} {durable : ℕ}
    (h' : F.Tracks table statuses' store' guarded' history csn)
    (hd : ∀ (k : K) (r : CurrentRecord), table[k]? = some r →
      ∀ id, r.undoHead = some id → id < durable) :
    F.Tracks table statuses' (store.reopen durable) (fun s => csn ≤ s) history csn where
  cell k := by
    have hcell := h.cell k
    have hbound : ∀ id, (decodeCurrent table[k]?).undoHead = some id → id < durable := by
      cases hr : table[k]? with
      | none => simp [decodeCurrent, CurrentRecord.absent]
      | some r => exact hd k r hr
    have hchain : (store.reopen durable).chain (decodeCurrent table[k]?) =
        store.chain (decodeCurrent table[k]?) := by
      rw [VersionStore.chain_eq, VersionStore.chain_eq, VersionStore.reopen_below hcell.known hbound]
    refine ⟨VersionStore.reopen_known hcell.known hbound, fun s hs => ?_, ?_, ?_⟩
    · cases hl : lastCommit (F.field k) history with
      | none =>
        have hnone : lastAt (F.field k) s history = none :=
          lastAt_eq_none fun c hc _ => lastCommit_eq_none.mp hl c hc
        rw [h.absent k hl, decodeCurrent, chain_absent, valueAt, hnone]
        exact ⟨_, VersionChain.visible_cons_of_le _ (stamp_of_system rfl) (Nat.zero_le s), .inl rfl⟩
      | some c =>
        obtain ⟨r, hr, hh⟩ := h'.head k c hl
        obtain ⟨n, hn, hlo, hhi, _⟩ := hh.stamped
        rw [hr, VersionStore.chain_eq, valueAt, lastAt_of_lastCommit hl (by omega), hh.value]
        exact ⟨_, VersionChain.visible_cons_of_le _ hn (hhi.trans hs), .inl rfl⟩
    · rw [hchain]; exact hcell.sourced
    · rw [hchain]; exact hcell.ordered
  absent := h.absent
  head := h'.head

end

end Family

/-- What a successful plan has established, before its batch is written. -/
structure Planned (σ : State) (plan : GcPlan) : Prop where
  watermark : plan.watermark = retentionWatermark σ
  trees : Collects σ.versions σ.statuses plan.watermark plan.retained σ.db.trees
    (σ.db.trees.insertAll plan.treeRewrites.toList)
  data : Collects σ.versions σ.statuses plan.watermark plan.retained σ.db.data
    (σ.db.data.insertAll plan.dataRewrites.toList)
  stored : ∀ id ∈ plan.retained, ∃ v, σ.versions.records[id]? = some v ∧
    (v.commit = 0 → v.transaction ∉ plan.prunable)
  prunable : ∀ t ∈ plan.prunable, t ∈ σ.statuses

theorem gcPlan_spec {σ : State} {plan : GcPlan} (h : gcPlan σ = .ok plan)
    (hdata : ∀ (l : Loc) (r : CurrentRecord), σ.db.data[l]? = some r → σ.versions.Known r.undoHead)
    (htrees : ∀ (t : ℕ) (r : CurrentRecord), σ.db.trees[t]? = some r →
      σ.versions.Known r.undoHead) : Planned σ plan := by
  unfold gcPlan at h
  obtain ⟨⟨R₁, treeRewrites⟩, ht, h⟩ := bind_eq_ok.mp h
  obtain ⟨⟨R, dataRewrites⟩, hd, h⟩ := bind_eq_ok.mp h
  obtain ⟨U, hU, h⟩ := bind_eq_ok.mp h
  cases h
  obtain ⟨_, hct⟩ := collect_collects htrees ht
  obtain ⟨hsub, hcd⟩ := collect_collects hdata hd
  refine ⟨rfl, hct.mono hsub, hcd, fun id hid => ?_, fun t ht => ?_⟩
  · obtain ⟨v, hv, hmem⟩ := unfrozenOf_spec hU id ((Finset.mem_sort _).mpr hid)
    exact ⟨v, hv, fun h0 => by simp [hmem h0]⟩
  · rw [List.mem_toFinset, List.mem_filter] at ht
    exact Std.ExtTreeMap.mem_keys.mp ht.1

end Txn
end OmenDb
