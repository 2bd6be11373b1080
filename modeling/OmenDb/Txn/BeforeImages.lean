import OmenDb.Txn.Serializability

/-! Which records can be overwritten. A current record takes 32 bytes beside its value and the version
that keeps it as a before-image takes 44, against one limit for both. A value in the gap is committed,
and the key is then stuck: no later transaction can build an overwrite or a delete of it. -/
namespace OmenDb.Txn

def valueLength (value : Option Bytes) : ℕ := (value.map List.length).getD 0

theorem limited_ok_iff {α : Type} (header length : ℕ) (large retention : Error) (a : α) :
    (∃ r, (if 2 ^ 32 ≤ length then .error large
      else if maxVersionBytes < header + length then .error retention else .ok a : Result α) = .ok r) ↔
      header + length ≤ maxVersionBytes := by
  have hword : maxVersionBytes < 2 ^ 32 := by decide
  by_cases hlarge : 2 ^ 32 ≤ length
  · rw [if_pos hlarge]
    have hlimit : ¬ header + length ≤ maxVersionBytes := by omega
    simp [hlimit]
  · rw [if_neg hlarge]
    by_cases hlimit : maxVersionBytes < header + length
    · simp [hlimit]
    · simp [hlimit, not_lt.mp hlimit]

theorem encodeCurrent_ok_iff (record : CurrentRecord) :
    (∃ r, encodeCurrent record = .ok r) ↔ 32 + valueLength record.value ≤ maxVersionBytes :=
  limited_ok_iff 32 (valueLength record.value) _ _ record

theorem encodeFrame_ok_iff (value : Option Bytes) :
    (∃ r, VersionStore.encodeFrame value = .ok r) ↔ 44 + valueLength value ≤ maxVersionBytes :=
  limited_ok_iff 44 (valueLength value) _ _ ()

variable {K : Type} {current : K → CurrentRecord} {transaction : ℕ} {store : VersionStore} {record : CurrentRecord}

theorem appendBeforeImage_ok_iff (hknown : store.Known record.undoHead) :
    (∃ r, appendBeforeImage store record = .ok r) ↔ 44 + valueLength record.value ≤ maxVersionBytes := by
  rw [← encodeFrame_ok_iff]
  unfold appendBeforeImage VersionStore.append
  rw [dif_pos hknown]
  cases VersionStore.encodeFrame record.value with
  | error e => simp [bind, Except.bind]
  | ok u => simp [bind, Except.bind, pure, Except.pure]

/-- A list of writes with values of their own that fit is built exactly when each record they
overwrite fits as a before-image. -/
theorem buildPuts_ok_iff (hknown : ∀ k, store.Known (current k).undoHead) {writes : List (K × Option Bytes)}
    (hnew : ∀ w ∈ writes, 32 + valueLength w.2 ≤ maxVersionBytes) :
    (∃ puts, (buildPuts current transaction writes store).2 = .ok puts) ↔
      ∀ w ∈ writes, 44 + valueLength (current w.1).value ≤ maxVersionBytes := by
  induction writes generalizing store with
  | nil => simp [buildPuts]
  | cons w writes ih =>
    obtain ⟨k, value⟩ := w
    obtain ⟨hvalue, hrest⟩ := List.forall_mem_cons.mp hnew
    rw [List.forall_mem_cons, ← appendBeforeImage_ok_iff (hknown k), buildPuts]
    cases happend : appendBeforeImage store (current k) with
    | error e => simp
    | ok r =>
      obtain ⟨undo, store'⟩ := r
      have hext := (appendBeforeImage_spec happend).1
      obtain ⟨r, hr⟩ := (encodeCurrent_ok_iff ⟨transaction, 0, undo, value⟩).mpr hvalue
      rw [← ih (fun k => hext.known (hknown k)) hrest]
      simp only [hr]
      cases hputs : (buildPuts current transaction writes store').2 with
      | error e | ok puts => simp [Except.map]

variable {σ : State}

/-- In every reachable state, writes whose own values can be committed are built exactly when every
value they overwrite is at most 44 bytes short of the limit. The records they overwrite may be as long as
`encode_current` accepts, 12 bytes more. -/
theorem overwrite_built_iff (h : runtime.Reachable σ) (transaction : ℕ) {writes : List (Loc × Option Bytes)}
    (hnew : ∀ w ∈ writes, ∀ undo, ∃ r, encodeCurrent ⟨transaction, 0, undo, w.2⟩ = .ok r) :
    (∃ puts, (buildPuts (fun l : Loc => decodeCurrent σ.db.data[l]?) transaction writes σ.versions).2 = .ok puts) ↔
      ∀ w ∈ writes, valueLength (decodeCurrent σ.db.data[w.1]?).value ≤ maxVersionBytes - 44 := by
  have hknown := (inv_of_reachable h).tables.known.data
  have hlimit : 44 ≤ maxVersionBytes := by decide
  rw [buildPuts_ok_iff hknown fun w hw => (encodeCurrent_ok_iff _).mp (hnew w hw none)]
  refine forall₂_congr fun w _ => ?_
  omega

/-- The key that the first transaction wrote can be deleted. -/
theorem overwrite_built_iff_openTree : ∃ σ, runtime.run State.create openTree = some σ ∧
    (decodeCurrent σ.db.data[(⟨1, [1]⟩ : Loc)]?).value = some [7] ∧
    ∃ puts, (buildPuts (fun l : Loc => decodeCurrent σ.db.data[l]?) 2 [(⟨1, [1]⟩, none)] σ.versions).2 = .ok puts := by
  have hrun : (runtime.run State.create openTree).map (fun σ => (decodeCurrent σ.db.data[(⟨1, [1]⟩ : Loc)]?).value) =
      some (some [7]) := by
    decide +kernel
  obtain ⟨σ, hσ, hvalue⟩ := Option.map_eq_some_iff.mp hrun
  refine ⟨σ, hσ, hvalue, (overwrite_built_iff (Machine.reachable_run (.init rfl) hσ) 2 ?_).mpr ?_⟩
  · simp [encodeCurrent, maxVersionBytes]
  · intro w hw
    obtain rfl := List.mem_singleton.mp hw
    rw [hvalue]
    decide

theorem appendBeforeImage_gap (hknown : store.Known record.undoHead)
    (haccepted : 32 + valueLength record.value ≤ maxVersionBytes)
    (hgap : maxVersionBytes < 44 + valueLength record.value) :
    appendBeforeImage store record = .error (.invalidArgument "MVCC version frame exceeds the retention limit") := by
  have hword : ¬ 2 ^ 32 ≤ (record.value.map List.length).getD 0 := by
    have hlimit : maxVersionBytes < 2 ^ 32 := by decide
    change ¬ 2 ^ 32 ≤ valueLength record.value
    omega
  unfold valueLength at hgap
  rw [appendBeforeImage, VersionStore.append, dif_pos hknown, VersionStore.encodeFrame, if_neg hword, if_pos hgap]
  rfl

/-- The database after the first commit has put one record at a key. -/
def afterFirst (l : Loc) (record : CurrentRecord) : Db :=
  State.create.db.commitMember ⟨⟨1, 0, (∅ : Writes).insert l record.value, ∅, ∅, ∅, ∅, {l}⟩, 1, [(l, record)], []⟩

theorem gap_stuck (l : Loc) {value : Bytes} (haccepted : 32 + value.length ≤ maxVersionBytes)
    (hgap : maxVersionBytes < 44 + value.length) :
    ∃ (record : CurrentRecord) (store : VersionStore), record.value = some value ∧
      buildPuts (fun l : Loc => decodeCurrent State.create.db.data[l]?) 1 [(l, some value)] State.create.versions =
        (store, .ok [(l, record)]) ∧
      (buildPuts (fun k : Loc => decodeCurrent (afterFirst l record).data[k]?) 2 [(l, none)] store).2 =
        .error (.invalidArgument "MVCC version frame exceeds the retention limit") := by
  have hempty : ∀ k : Loc, decodeCurrent State.create.db.data[k]? = .absent :=
    fun k => by simp [State.create, decodeCurrent]
  have hknown : ∀ k : Loc, State.create.versions.Known (decodeCurrent State.create.db.data[k]?).undoHead := by
    intro k
    rw [hempty k]
    exact VersionStore.known_none
  have hnew : ∀ w ∈ [(l, some value)], 32 + valueLength w.2 ≤ maxVersionBytes := by simpa [valueLength] using haccepted
  have hold : ∀ w ∈ [(l, some value)], 44 + valueLength (decodeCurrent State.create.db.data[w.1]?).value ≤
      maxVersionBytes := by
    simp [hempty, CurrentRecord.absent, valueLength, maxVersionBytes]
  obtain ⟨puts, hputs⟩ := (@buildPuts_ok_iff _ _ 1 _ hknown _ hnew).mpr hold
  have hspec := buildPuts_spec hknown hputs
  obtain ⟨⟨k, record⟩, rfl⟩ : ∃ put, puts = [put] :=
    List.length_eq_one_iff.mp (by simpa using congrArg List.length hspec.keys)
  obtain ⟨hwrite, -, -, hundo, -⟩ := hspec.put (k, record) (by simp)
  obtain ⟨rfl, hvalue⟩ : k = l ∧ record.value = some value := by simpa using hwrite
  refine ⟨record, (buildPuts _ 1 [(k, some value)] State.create.versions).1, hvalue, Prod.ext rfl hputs, ?_⟩
  have hthere : decodeCurrent (afterFirst k record).data[k]? = record := by
    simp [afterFirst, Db.commitMember, OrdMap.insertAll, decodeCurrent]
  have hlength : valueLength record.value = value.length := by rw [hvalue]; rfl
  have hrefused : appendBeforeImage _ record = _ := appendBeforeImage_gap hundo (by omega) (by omega)
  rw [buildPuts, hthere, hrefused]

/-- A value 40 bytes short of the limit. -/
theorem overwrite_refused : ∃ (record : CurrentRecord) (store : VersionStore),
    record.value = some (List.replicate (16 * 1024 * 1024 - 40) 0) ∧
    buildPuts (fun l : Loc => decodeCurrent State.create.db.data[l]?) 1
      [(⟨1, [1]⟩, some (List.replicate (16 * 1024 * 1024 - 40) 0))]
      State.create.versions = (store, .ok [(⟨1, [1]⟩, record)]) ∧
    (buildPuts (fun l : Loc => decodeCurrent (afterFirst ⟨1, [1]⟩ record).data[l]?) 2 [(⟨1, [1]⟩, none)] store).2 =
      .error (.invalidArgument "MVCC version frame exceeds the retention limit") :=
  gap_stuck ⟨1, [1]⟩ (by rw [List.length_replicate]; decide) (by rw [List.length_replicate]; decide)

end OmenDb.Txn
