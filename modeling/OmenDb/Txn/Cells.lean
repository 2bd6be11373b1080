import OmenDb.Txn.History

/-! Tables of current records against a history of commits. A family says what a commit writes to
each key; data keys and tree lifecycles are the two families. A table tracks a history when the
chain of every record shows each protected snapshot the value the history assigns to it.
Reservations are provisional: their status may still move, so a snapshot may see a reservation
or nothing, and the two count as the same. -/
namespace OmenDb.Txn

/-- Some commit of the transaction is in the history; a tree reservation is not a commit. -/
def Committed (history : List Commit) (transaction : ℕ) : Prop :=
  ∃ c ∈ history, c.transaction = transaction ∧ c.reservation = false

theorem Committed.append {history : List Commit} {t : ℕ} (h : Committed history t)
    (new : List Commit) : Committed (new ++ history) t := by
  obtain ⟨c, hc, ht⟩ := h
  exact ⟨c, by simp [hc], ht⟩

/-- What each commit writes to a key, and which values are provisional. -/
structure Family (K : Type) where
  field : K → Commit → Option (Option Bytes)
  soft : Option Bytes → Prop

def dataFamily : Family Loc := ⟨fun l c => c.writes[l]?, fun _ => False⟩

def treeFamily : Family ℕ :=
  ⟨fun tree c => (c.treeLifecycles[tree]?).map some, fun v => v = some treeReserved⟩

namespace Family

variable {K : Type} (F : Family K)

def Unsettled (v : Option Bytes) : Prop := v = none ∨ F.soft v

def Agrees (v v' : Option Bytes) : Prop := v = v' ∨ F.Unsettled v ∧ F.Unsettled v'

/-- The entries that may still refer to the status table. -/
def Source (history : List Commit) (e : Entry) : Prop :=
  F.soft e.value ∨ Committed history e.transaction

/-- One record of a table against the history of its key. -/
structure Cell (k : K) (statuses : Statuses) (store : VersionStore) (guarded : ℕ → Prop)
    (history : List Commit) (record : CurrentRecord) : Prop where
  known : store.Known record.undoHead
  visible : ∀ s, guarded s → ∃ e,
    VersionChain.visible (stamp statuses) s (store.chain record) = some e ∧
      F.Agrees (e.bind (·.value)) (valueAt (F.field k) s history)
  sourced : ∀ e ∈ store.chain record, e.commit = 0 → e.transaction ≠ 0 → F.Source history e
  ordered : (store.chain record).Pairwise fun a b => F.soft a.value → b = ⟨0, 0, none⟩

/-- The record of a key carries its last writer, whose commit is resolvable. -/
structure Head (k : K) (statuses : Statuses) (csn : ℕ) (c : Commit) (record : CurrentRecord) :
    Prop where
  transaction : record.transaction = c.transaction
  value : F.field k c = some record.value
  stamped : ∃ n, stamp statuses record.entry = some n ∧ c.csn ≤ n ∧ n ≤ csn ∧
    (¬ F.soft record.value → n = c.csn)

/-- A table tracks a history up to sequence number `csn`. -/
structure Tracks [LinearOrder K] (table : OrdMap K CurrentRecord) (statuses : Statuses)
    (store : VersionStore) (guarded : ℕ → Prop) (history : List Commit) (csn : ℕ) : Prop where
  cell : ∀ k : K, F.Cell k statuses store guarded history (decodeCurrent table[k]?)
  absent : ∀ k : K, lastCommit (F.field k) history = none → table[k]? = none
  head : ∀ (k : K) (c : Commit), lastCommit (F.field k) history = some c →
    ∃ record, table[k]? = some record ∧ F.Head k statuses csn c record

variable {F}

theorem Agrees.of_unsettled {v v' x : Option Bytes} (h : F.Agrees v x) (hv : F.Unsettled v)
    (hv' : F.Unsettled v') : F.Agrees v' x := by
  rcases h with rfl | ⟨_, hx⟩
  · exact .inr ⟨hv', hv⟩
  · exact .inr ⟨hv', hx⟩

/-- Moving the stamps of provisional entries changes only provisional answers: below a
provisional entry there is nothing but the absent record. -/
theorem visible_restamp {st st' : Entry → Option ℕ} {s : ℕ} {l : List Entry} {r : Option Entry}
    (hord : l.Pairwise fun a b => F.soft a.value → b = ⟨0, 0, none⟩)
    (hst : ∀ e ∈ l, st' e = st e ∨ F.soft e.value ∧ (st' e).isSome)
    (hbase : st' ⟨0, 0, none⟩ = some 0) (h : VersionChain.visible st s l = some r) :
    ∃ r', VersionChain.visible st' s l = some r' ∧
      (r' = r ∨ F.Unsettled (r'.bind (·.value)) ∧ F.Unsettled (r.bind (·.value))) := by
  induction l with
  | nil => exact ⟨r, by simpa using h, .inl rfl⟩
  | cons e es ih =>
    obtain ⟨he, hes⟩ := List.pairwise_cons.mp hord
    rcases hst e (by simp) with hsame | ⟨hsoft, hsome⟩
    · cases hc : st e with
      | none => simp [VersionChain.visible, hc] at h
      | some c =>
        rw [hc] at hsame
        by_cases hle : c ≤ s
        · rw [VersionChain.visible_cons_of_le _ hc hle] at h
          exact ⟨r, by rw [VersionChain.visible_cons_of_le _ hsame hle, h], .inl rfl⟩
        · rw [VersionChain.visible_cons_of_lt _ hc (by omega)] at h
          rw [VersionChain.visible_cons_of_lt _ hsame (by omega)]
          exact ih hes (fun x hx => hst x (by simp [hx])) h
    · -- everything below is the absent record, so both walks end provisionally
      have hbelow : ∀ x ∈ e :: es, F.Unsettled x.value := by
        intro x hx
        rcases List.mem_cons.mp hx with rfl | hx
        · exact .inr hsoft
        · exact .inl (by rw [he x hx hsoft])
      have hans : ∀ {st : Entry → Option ℕ} {q : Option Entry},
          VersionChain.visible st s (e :: es) = some q → F.Unsettled (q.bind (·.value)) := by
        intro st q hq
        cases q with
        | none => exact .inl rfl
        | some x => exact hbelow x (VersionChain.mem_of_visible hq)
      obtain ⟨c', hc'⟩ := Option.isSome_iff_exists.mp hsome
      have htail : ∃ r', VersionChain.visible st' s (e :: es) = some r' := by
        by_cases hle : c' ≤ s
        · exact ⟨_, VersionChain.visible_cons_of_le _ hc' hle⟩
        · rw [VersionChain.visible_cons_of_lt _ hc' (by omega)]
          cases es with
          | nil => exact ⟨none, rfl⟩
          | cons x xs =>
            have hx : x = ⟨0, 0, none⟩ := he x (by simp) hsoft
            exact ⟨_, VersionChain.visible_cons_of_le _ (by rw [hx]; exact hbase) (Nat.zero_le s)⟩
      obtain ⟨r', hr'⟩ := htail
      exact ⟨r', hr', .inr ⟨hans hr', hans h⟩⟩

/-- New statuses that spare committed transactions and move others into `[csn, csn']`. -/
structure Grows (history : List Commit) (csn csn' : ℕ) (statuses statuses' : Statuses) : Prop where
  committed : ∀ x, Committed history x → statuses'[x]? = statuses[x]?
  moved : ∀ x : ℕ, statuses'[x]? = statuses[x]? ∨ ∃ n, statuses'[x]? = some n ∧ csn ≤ n ∧ n ≤ csn'

variable {k : K} {statuses statuses' : Statuses} {store store' : VersionStore}
  {guarded guarded' : ℕ → Prop} {history new : List Commit} {record : CurrentRecord} {csn csn' : ℕ}

theorem stamp_grows (hg : Grows history csn csn' statuses statuses') {e : Entry}
    (hsrc : e.commit = 0 → e.transaction ≠ 0 → F.Source history e) :
    stamp statuses' e = stamp statuses e ∨
      F.soft e.value ∧ ∃ n, stamp statuses' e = some n ∧ csn ≤ n ∧ n ≤ csn' := by
  by_cases hc : e.commit = 0
  · by_cases ht : e.transaction = 0
    · exact .inl (by rw [stamp_of_system ht, stamp_of_system ht])
    · rw [stamp_of_zero hc ht, stamp_of_zero hc ht]
      rcases hsrc hc ht with hs | hcm
      · exact (hg.moved e.transaction).imp id fun h => ⟨hs, h⟩
      · exact .inl (hg.committed _ hcm)
  · exact .inl (by rw [stamp_of_ne_zero hc, stamp_of_ne_zero hc])

namespace Cell

section

variable (h : F.Cell k statuses store guarded history record)
include h

theorem mono (hg : ∀ s, guarded' s → guarded s) : F.Cell k statuses store guarded' history record :=
  { h with visible := fun s hs => h.visible s (hg s hs) }

theorem append (hn : ∀ c ∈ new, F.field k c = none) :
    F.Cell k statuses store guarded (new ++ history) record where
  known := h.known
  visible s hs := by
    have hnone : lastAt (F.field k) s new = none := lastAt_eq_none fun c hc _ => hn c hc
    simpa [valueAt, lastAt_append, hnone] using h.visible s hs
  sourced e he hc ht := (h.sourced e he hc ht).imp id fun h => h.append new
  ordered := h.ordered

theorem extend (hx : VersionStore.Extends store store') :
    F.Cell k statuses store' guarded history record where
  known := hx.known h.known
  visible s hs := by simpa [hx.chain h.known] using h.visible s hs
  sourced := by simpa [hx.chain h.known] using h.sourced
  ordered := by simpa [hx.chain h.known] using h.ordered

theorem restatus (hg : Grows history csn csn' statuses statuses') :
    F.Cell k statuses' store guarded history record where
  known := h.known
  visible s hs := by
    obtain ⟨r, hr, ha⟩ := h.visible s hs
    have hst : ∀ e ∈ store.chain record, stamp statuses' e = stamp statuses e ∨
        F.soft e.value ∧ (stamp statuses' e).isSome := fun e he =>
      (stamp_grows hg (h.sourced e he)).imp id fun ⟨hs, n, hn, _⟩ => ⟨hs, by simp [hn]⟩
    obtain ⟨r', hr', heq | ⟨hu', hu⟩⟩ :=
      visible_restamp h.ordered hst (stamp_of_system rfl) hr
    · exact ⟨r', hr', by rw [heq]; exact ha⟩
    · exact ⟨r', hr', ha.of_unsettled hu hu'⟩
  sourced := h.sourced
  ordered := h.ordered

end

end Cell

/-- How a commit's record of a key sits on the record it overwrites. -/
structure Put (F : Family K) (k : K) (c : Commit) (old : CurrentRecord) (store store' : VersionStore)
    (record : CurrentRecord) : Prop where
  known : store'.Known record.undoHead
  chain : store'.chain record = record.entry :: store.chain old
  transaction : record.transaction = c.transaction
  unstamped : record.commit = 0
  value : F.field k c = some record.value

theorem Put.entry {old : CurrentRecord} {c : Commit} (h : Put F k c old store store' record) :
    record.entry = ⟨c.transaction, 0, record.value⟩ := by
  simp [CurrentRecord.entry, h.transaction, h.unstamped]

theorem Cell.put {old : CurrentRecord} {c : Commit}
    (h : F.Cell k statuses store guarded history old) (hp : Put F k c old store store' record)
    (hc : c ∈ new) (hu : ∀ x ∈ new, (F.field k x).isSome → x = c)
    (ht : c.transaction ≠ 0) (hst : statuses[c.transaction]? = some c.csn)
    (hsrc : F.soft record.value ∨ c.reservation = false)
    (hsoft : F.soft record.value → store.chain old = [⟨0, 0, none⟩]) :
    F.Cell k statuses store' guarded (new ++ history) record where
  known := hp.known
  visible s hs := by
    have hstamp : stamp statuses record.entry = some c.csn := by
      rw [hp.entry, stamp_of_zero rfl ht]; exact hst
    have hlast := lastAt_single (s := s) hc hp.value hu
    rw [hp.chain]
    by_cases hle : c.csn ≤ s
    · refine ⟨_, VersionChain.visible_cons_of_le _ hstamp hle, .inl ?_⟩
      simp [valueAt, lastAt_append, hlast, hle, CurrentRecord.entry]
    · obtain ⟨e, he, ha⟩ := h.visible s hs
      refine ⟨e, by rw [VersionChain.visible_cons_of_lt _ hstamp (by omega), he], ?_⟩
      simpa [valueAt, lastAt_append, hlast, hle] using ha
  sourced e he hc0 ht0 := by
    rw [hp.chain] at he
    rcases List.mem_cons.mp he with rfl | he
    · refine hsrc.imp id fun hr => ⟨c, by simp [hc], ?_, hr⟩
      exact hp.transaction.symm
    · exact (h.sourced e he hc0 ht0).imp id fun h => h.append new
  ordered := by
    rw [hp.chain]
    refine List.pairwise_cons.mpr ⟨fun e he hs => ?_, h.ordered⟩
    rw [hsoft hs] at he
    simpa using he

/-- A group of commits installed over a table: each key has at most one writer in the group. -/
structure Installs [LinearOrder K] (F : Family K) (table table' : OrdMap K CurrentRecord)
    (store store' : VersionStore) (new : List Commit) : Prop where
  old : ∀ k : K, (∀ c ∈ new, F.field k c = none) → table'[k]? = table[k]?
  put : ∀ k : K, ∀ c ∈ new, (F.field k c).isSome →
    ∃ record, table'[k]? = some record ∧ Put F k c (decodeCurrent table[k]?) store store' record
  single : ∀ k : K, ∀ c ∈ new, ∀ x ∈ new, (F.field k c).isSome → (F.field k x).isSome → x = c

namespace Tracks

variable [LinearOrder K] {table table' : OrdMap K CurrentRecord}

theorem mono (h : F.Tracks table statuses store guarded history csn)
    (hg : ∀ s, guarded' s → guarded s) : F.Tracks table statuses store guarded' history csn :=
  { h with cell := fun k => (h.cell k).mono hg }

theorem extend (h : F.Tracks table statuses store guarded history csn)
    (hx : VersionStore.Extends store store') : F.Tracks table statuses store' guarded history csn :=
  { h with cell := fun k => (h.cell k).extend hx }

theorem chain_absent : store.chain .absent = [⟨0, 0, none⟩] := rfl

theorem head_grows (h : F.Tracks table statuses store guarded history csn)
    (hg : Grows history csn csn' statuses statuses') (hcsn : csn ≤ csn') {c : Commit}
    (hl : lastCommit (F.field k) history = some c) :
    ∃ record, table[k]? = some record ∧ F.Head k statuses' csn' c record := by
  obtain ⟨record, hr, hh⟩ := h.head k c hl
  refine ⟨record, hr, hh.transaction, hh.value, ?_⟩
  obtain ⟨n, hn, hlo, hhi, hx⟩ := hh.stamped
  have hcell := h.cell k
  rw [hr] at hcell
  rcases stamp_grows hg (hcell.sourced record.entry (by simp [decodeCurrent, VersionStore.chain]))
    with hsame | ⟨hs, n', hn', hlo', hhi'⟩
  · exact ⟨n, by rw [hsame, hn], hlo, hhi.trans hcsn, hx⟩
  · exact ⟨n', hn', by omega, hhi', fun hns => absurd hs hns⟩

theorem install (h : F.Tracks table statuses store guarded history csn)
    (hi : Installs F table table' store store' new) (hx : VersionStore.Extends store store')
    (hg : Grows history csn csn' statuses statuses') (hcsn : csn ≤ csn')
    (hnew : ∀ c ∈ new, c.csn ≤ csn' ∧ c.transaction ≠ 0 ∧ statuses'[c.transaction]? = some c.csn)
    (hsoft : ∀ k : K, ∀ c ∈ new, ∀ v, F.field k c = some v →
      F.soft v ∧ lastCommit (F.field k) history = none ∨ ¬ F.soft v ∧ c.reservation = false) :
    F.Tracks table' statuses' store' guarded (new ++ history) csn' where
  cell k := by
    by_cases hn : ∀ c ∈ new, F.field k c = none
    · rw [hi.old k hn]
      exact (((h.cell k).restatus hg).extend hx).append hn
    · push Not at hn
      obtain ⟨c, hc, hw⟩ := hn
      have hw := Option.ne_none_iff_isSome.mp hw
      obtain ⟨record, hr, hp⟩ := hi.put k c hc hw
      obtain ⟨_, ht, hst⟩ := hnew c hc
      have hsrc := hsoft k c hc record.value hp.value
      rw [hr]
      refine ((h.cell k).restatus hg).put hp hc (fun x hx hxw => hi.single k c hc x hx hw hxw)
        ht hst (hsrc.imp And.left And.right) fun hs => ?_
      rcases hsrc with ⟨_, hl⟩ | ⟨hns, _⟩
      · rw [h.absent k hl]; exact chain_absent
      · exact absurd hs hns
  absent k hl := by
    rw [lastCommit_append, Option.or_eq_none_iff] at hl
    rw [hi.old k (lastCommit_eq_none.mp hl.1)]
    exact h.absent k hl.2
  head k c hl := by
    rw [lastCommit_append] at hl
    cases hn : lastCommit (F.field k) new with
    | none =>
      rw [hn, Option.none_or] at hl
      rw [hi.old k (lastCommit_eq_none.mp hn)]
      exact h.head_grows hg hcsn hl
    | some x =>
      rw [hn, Option.some_or, Option.some.injEq] at hl
      subst hl
      have hx := lastCommit_mem hn
      obtain ⟨record, hr, hp⟩ := hi.put k x hx (lastCommit_writes hn)
      obtain ⟨hle, ht, hst⟩ := hnew x hx
      refine ⟨record, hr, hp.transaction, hp.value, x.csn, ?_, le_rfl, hle, fun _ => rfl⟩
      rw [hp.entry, stamp_of_zero rfl ht]
      exact hst

end Tracks

end Family
end OmenDb.Txn
