import OmenDb.Vnext.LogCodec

/-! The assembler of recovery. It is fed the records of the log in order and gives out a transaction
when the commit record names the mutations that were seen. What it does to a transaction depends on
that transaction's records alone; between transactions only the order of the commits and the
positions in the log are compared. -/
namespace OmenDb.Vnext

abbrev Lsn := ℕ

structure RecoveredTransaction where
  txn : TxnId
  csn : Word 8
  lsn : Lsn
  mutations : List LoggedMutation
  deriving DecidableEq

inductive RecoveryError
  | nonMonotonicLsn (previous actual : Lsn)
  | reservedTxn
  | reservedCommitSeq
  | mutationOrdinal (txn : TxnId) (expected actual : Word 4)
  | recordAfterTerminal (txn : TxnId)
  | mutationCount (txn : TxnId) (declared actual : Word 4)
  | mutationDigest (txn : TxnId)
  | nonMonotonicCommitSeq (previous actual : Word 8)
  | mutationEncoding
  deriving DecidableEq

structure RecoveryAssembler where
  pending : OrdMap TxnId (List LoggedMutation)
  terminal : Finset TxnId
  lastLsn : Option Lsn
  lastCsn : Option (Word 8)

/-- A length as a word, the largest one if it does not fit. -/
def clampLength (n : ℕ) : Word 4 := (Word.ofLength? n).getD Word.max

namespace RecoveryAssembler

def new : RecoveryAssembler := ⟨∅, ∅, none, none⟩

def waiting (s : RecoveryAssembler) (txn : TxnId) : List LoggedMutation := s.pending[txn]?.getD []

def pushMutation (s : RecoveryAssembler) (mutation : LoggedMutation) :
    Except RecoveryError (Option RecoveredTransaction) × RecoveryAssembler :=
  let txn := mutation.txn
  if txn = 0 then (.error .reservedTxn, s)
  else if txn ∈ s.terminal then (.error (.recordAfterTerminal txn), s)
  else
    let expected := clampLength (s.waiting txn).length
    if mutation.ordinal ≠ expected then
      (.error (.mutationOrdinal txn expected mutation.ordinal),
        { s with pending := s.pending.insert txn (s.waiting txn) })
    else (.ok none, { s with pending := s.pending.insert txn (s.waiting txn ++ [mutation]) })

def pushAbort (s : RecoveryAssembler) (txn : TxnId) :
    Except RecoveryError (Option RecoveredTransaction) × RecoveryAssembler :=
  if txn = 0 then (.error .reservedTxn, s)
  else if txn ∈ s.terminal then (.error (.recordAfterTerminal txn), s)
  else (.ok none, { s with terminal := insert txn s.terminal, pending := s.pending.erase txn })

def pushCommit (crc : Bytes → Word 4) (s : RecoveryAssembler) (lsn : Lsn) (decision : CommitDecision) :
    Except RecoveryError (Option RecoveredTransaction) × RecoveryAssembler :=
  let txn := decision.txn
  if txn = 0 then (.error .reservedTxn, s)
  else if decision.csn = 0 then (.error .reservedCommitSeq, s)
  else if txn ∈ s.terminal then (.error (.recordAfterTerminal txn), s)
  else
    let closed := { s with terminal := insert txn s.terminal }
    match s.lastCsn.filter fun previous => decide (decision.csn ≤ previous) with
    | some previous => (.error (.nonMonotonicCommitSeq previous decision.csn), closed)
    | none =>
      let mutations := s.waiting txn
      let closed := { closed with pending := s.pending.erase txn }
      let actual := clampLength mutations.length
      if decision.mutationCount ≠ actual then (.error (.mutationCount txn decision.mutationCount actual), closed)
      else match Vnext.mutationDigest crc mutations with
      | .error _ => (.error .mutationEncoding, closed)
      | .ok digest =>
        if decision.mutationDigest ≠ digest then (.error (.mutationDigest txn), closed)
        else (.ok (some ⟨txn, decision.csn, lsn, mutations⟩), { closed with lastCsn := some decision.csn })

def push (crc : Bytes → Word 4) (s : RecoveryAssembler) (lsn : Lsn) (record : LogRecord) :
    Except RecoveryError (Option RecoveredTransaction) × RecoveryAssembler :=
  match s.lastLsn.filter fun previous => decide (lsn ≤ previous) with
  | some previous => (.error (.nonMonotonicLsn previous lsn), s)
  | none =>
    let s := { s with lastLsn := some lsn }
    match record with
    | .mutation mutation => s.pushMutation mutation
    | .abort txn => s.pushAbort txn
    | .commit decision => s.pushCommit crc lsn decision

def feed (crc : Bytes → Word 4) (s : RecoveryAssembler) :
    List (Lsn × LogRecord) → Except RecoveryError (List RecoveredTransaction × RecoveryAssembler)
  | [] => .ok ([], s)
  | (lsn, record) :: stream =>
    match s.push crc lsn record with
    | (.error error, _) => .error error
    | (.ok emitted, s) =>
      match feed crc s stream with
      | .error error => .error error
      | .ok (rest, s) => .ok (emitted.toList ++ rest, s)

end RecoveryAssembler

def LogRecord.txn : LogRecord → TxnId
  | .mutation logged => logged.txn
  | .commit decision => decision.txn
  | .abort txn => txn

/-- What the records of one transaction come to: mutations in wait, or a decision. -/
inductive TxnLog
  | waiting (mutations : List LoggedMutation)
  | decided
  deriving DecidableEq

def TxnLog.mutations : TxnLog → List LoggedMutation
  | .waiting mutations => mutations
  | .decided => []

/-- What a record has to agree with in the mutations before it. -/
def LogRecord.Fits (crc : Bytes → Word 4) (mutations : List LoggedMutation) : LogRecord → Prop
  | .mutation logged => logged.ordinal = clampLength mutations.length
  | .abort _ => True
  | .commit decision => decision.csn ≠ 0 ∧ decision.mutationCount = clampLength mutations.length ∧
      mutationDigest crc mutations = .ok decision.mutationDigest

instance (crc : Bytes → Word 4) (mutations : List LoggedMutation) (record : LogRecord) :
    Decidable (record.Fits crc mutations) := by
  cases record <;> unfold LogRecord.Fits <;> infer_instance

def TxnLog.after (mutations : List LoggedMutation) : LogRecord → TxnLog
  | .mutation logged => .waiting (mutations ++ [logged])
  | _ => .decided

def TxnLog.step (crc : Bytes → Word 4) : TxnLog → LogRecord → Option TxnLog
  | .waiting mutations, record =>
    if record.txn ≠ 0 ∧ record.Fits crc mutations then some (.after mutations record) else none
  | .decided, _ => none

def TxnLog.run (crc : Bytes → Word 4) (log : TxnLog) : List LogRecord → Option TxnLog
  | [] => some log
  | record :: records => (log.step crc record).bind fun log => log.run crc records

def recordsOf (txn : TxnId) (stream : List (Lsn × LogRecord)) : List LogRecord :=
  (stream.map Prod.snd).filter fun record => decide (record.txn = txn)

def mutationsOf (txn : TxnId) (stream : List (Lsn × LogRecord)) : List LoggedMutation :=
  (recordsOf txn stream).filterMap fun
    | .mutation logged => some logged
    | _ => none

/-- The commit records of a stream, with their positions. -/
def commitsOf (stream : List (Lsn × LogRecord)) : List (Lsn × CommitDecision) :=
  stream.filterMap fun
    | (lsn, .commit decision) => some (lsn, decision)
    | _ => none

namespace RecoveryAssembler

variable {crc : Bytes → Word 4} {s s' : RecoveryAssembler} {lsn : Lsn} {record : LogRecord} {txn : TxnId}

def log (s : RecoveryAssembler) (txn : TxnId) : TxnLog :=
  if txn ∈ s.terminal then .decided else .waiting (s.waiting txn)

def CsnAdvances (s : RecoveryAssembler) : LogRecord → Prop
  | .commit decision => ∀ previous ∈ s.lastCsn, previous < decision.csn
  | _ => True

structure Admits (crc : Bytes → Word 4) (s : RecoveryAssembler) (lsn : Lsn) (record : LogRecord) : Prop where
  lsn : ∀ previous ∈ s.lastLsn, previous < lsn
  log : ((s.log record.txn).step crc record).isSome
  csn : s.CsnAdvances record

def emitted (s : RecoveryAssembler) (lsn : Lsn) : LogRecord → Option RecoveredTransaction
  | .commit decision => some ⟨decision.txn, decision.csn, lsn, (s.log decision.txn).mutations⟩
  | _ => none

structure Took (crc : Bytes → Word 4) (s s' : RecoveryAssembler) (lsn : Lsn) (record : LogRecord) : Prop where
  own : (s.log record.txn).step crc record = some (s'.log record.txn)
  others : ∀ txn ≠ record.txn, s'.log txn = s.log txn
  lastLsn : s'.lastLsn = some lsn
  lastCsn : s'.lastCsn = match record with
    | .commit decision => some decision.csn
    | _ => s.lastCsn

theorem Took.decided {decision : CommitDecision} (h : s.Took crc s' lsn (.commit decision)) :
    s'.log decision.txn = .decided := by
  have hown := h.own
  cases hlog : s.log decision.txn with
  | decided =>
    rw [LogRecord.txn, hlog] at hown
    cases hown
  | waiting mutations =>
    rw [LogRecord.txn, hlog, TxnLog.step] at hown
    split at hown
    · exact (Option.some.inj hown).symm
    · cases hown

theorem filter_eq_none_iff {α : Type} [LinearOrder α] {o : Option α} {a : α} :
    (o.filter fun previous => decide (a ≤ previous)) = none ↔ ∀ previous ∈ o, previous < a := by
  cases o <;> simp

theorem log_of_terminal (h : txn ∈ s.terminal) : s.log txn = .decided := if_pos h

theorem log_of_open (h : txn ∉ s.terminal) : s.log txn = .waiting (s.waiting txn) := if_neg h

theorem step_isSome_iff : ((s.log record.txn).step crc record).isSome ↔
    record.txn ≠ 0 ∧ record.txn ∉ s.terminal ∧ record.Fits crc (s.waiting record.txn) := by
  by_cases hterminal : record.txn ∈ s.terminal
  · simp [log_of_terminal hterminal, TxnLog.step, hterminal]
  · by_cases hfits : record.txn ≠ 0 ∧ record.Fits crc (s.waiting record.txn)
    · simp [log_of_open hterminal, TxnLog.step, hfits.1, hfits.2, hterminal]
    · rw [log_of_open hterminal, TxnLog.step, if_neg hfits]
      simp only [Option.isSome_none, Bool.false_eq_true, false_iff]
      exact fun h => hfits ⟨h.1, h.2.2⟩

theorem step_of_fits (record : LogRecord) (hfits : record.Fits crc (s.waiting record.txn)) (hzero : record.txn ≠ 0)
    (hopen : record.txn ∉ s.terminal) :
    (s.log record.txn).step crc record = some (.after (s.waiting record.txn) record) := by
  rw [log_of_open hopen, TxnLog.step, if_pos ⟨hzero, hfits⟩]

theorem Admits.fits (h : s.Admits crc lsn record) :
    record.txn ≠ 0 ∧ record.txn ∉ s.terminal ∧ record.Fits crc (s.waiting record.txn) :=
  step_isSome_iff.mp h.log

/-- What becomes of a push: it has done its transaction's step, or is refused. -/
def Outcome (crc : Bytes → Word 4) (s : RecoveryAssembler) (lsn : Lsn) (record : LogRecord)
    (pushed : Except RecoveryError (Option RecoveredTransaction) × RecoveryAssembler) : Prop :=
  (s.Admits crc lsn record ∧ pushed.1 = .ok (s.emitted lsn record) ∧ s.Took crc pushed.2 lsn record) ∨
    (¬s.Admits crc lsn record ∧ ∃ error, pushed.1 = .error error)

theorem Outcome.refused {error : RecoveryError} (h : ¬s.Admits crc lsn record) :
    Outcome crc s lsn record (.error error, s') :=
  .inr ⟨h, error, rfl⟩

theorem pushMutation_outcome (hlsn : ∀ previous ∈ s.lastLsn, previous < lsn) (logged : LoggedMutation) :
    Outcome crc s lsn (.mutation logged) (pushMutation { s with lastLsn := some lsn } logged) := by
  rw [pushMutation]
  split
  · next hzero => exact .refused fun h => h.fits.1 hzero
  next hzero =>
  split
  · next hterminal => exact .refused fun h => h.fits.2.1 hterminal
  next hopen =>
  dsimp only
  split
  · next hordinal => exact .refused fun h => hordinal h.fits.2.2
  next hordinal =>
  have hfits : (LogRecord.mutation logged).Fits crc (s.waiting logged.txn) := not_not.mp hordinal
  refine .inl ⟨⟨hlsn, step_isSome_iff.mpr ⟨hzero, hopen, hfits⟩, trivial⟩, rfl, ?_, ?_, rfl, rfl⟩
  · rw [step_of_fits (.mutation logged) hfits hzero hopen]
    have hopen : logged.txn ∉ s.terminal := hopen
    simp [TxnLog.after, log, waiting, LogRecord.txn, hopen]
  · intro other hne
    have hne : logged.txn ≠ other := Ne.symm hne
    simp [log, waiting, hne]

theorem pushAbort_outcome (hlsn : ∀ previous ∈ s.lastLsn, previous < lsn) (txn : TxnId) :
    Outcome crc s lsn (.abort txn) (pushAbort { s with lastLsn := some lsn } txn) := by
  rw [pushAbort]
  split
  · next hzero => exact .refused fun h => h.fits.1 hzero
  next hzero =>
  split
  · next hterminal => exact .refused fun h => h.fits.2.1 hterminal
  next hopen =>
  have hfits : (LogRecord.abort txn).Fits crc (s.waiting txn) := trivial
  refine .inl ⟨⟨hlsn, step_isSome_iff.mpr ⟨hzero, hopen, hfits⟩, trivial⟩, rfl, ?_, ?_, rfl, rfl⟩
  · rw [step_of_fits (.abort txn) hfits hzero hopen, log_of_terminal (by simp [LogRecord.txn])]
    rfl
  · intro other hne
    have hne : other ≠ txn := hne
    simp [log, waiting, hne, Ne.symm hne]

theorem pushCommit_outcome (hlsn : ∀ previous ∈ s.lastLsn, previous < lsn) (decision : CommitDecision) :
    Outcome crc s lsn (.commit decision) (pushCommit crc { s with lastLsn := some lsn } lsn decision) := by
  rw [pushCommit]
  split
  · next hzero => exact .refused fun h => h.fits.1 hzero
  next hzero =>
  split
  · next hcsn => exact .refused fun h => h.fits.2.2.1 hcsn
  next hcsn =>
  split
  · next hterminal => exact .refused fun h => h.fits.2.1 hterminal
  next hopen =>
  dsimp only
  split
  · next previous horder =>
    refine .refused fun h => ?_
    rw [filter_eq_none_iff.mpr h.csn] at horder
    cases horder
  next horder =>
  split
  · next hcount => exact .refused fun h => hcount h.fits.2.2.2.1
  next hcount =>
  split
  · next error hdigest =>
    refine .refused fun h => ?_
    cases hdigest.symm.trans h.fits.2.2.2.2
  next digest hdigest =>
  split
  · next hdiffers =>
    refine .refused fun h => ?_
    cases hdigest.symm.trans h.fits.2.2.2.2
    exact hdiffers rfl
  next hsame =>
  cases not_not.mp hsame
  have hfits : (LogRecord.commit decision).Fits crc (s.waiting decision.txn) := ⟨hcsn, not_not.mp hcount, hdigest⟩
  refine .inl ⟨⟨hlsn, step_isSome_iff.mpr ⟨hzero, hopen, hfits⟩, filter_eq_none_iff.mp horder⟩, ?_, ?_, ?_, rfl, rfl⟩
  · rw [emitted, log_of_open (show decision.txn ∉ s.terminal from hopen)]
    rfl
  · rw [step_of_fits (.commit decision) hfits hzero hopen, log_of_terminal (by simp [LogRecord.txn])]
    rfl
  · intro other hne
    have hne : other ≠ decision.txn := hne
    simp [log, waiting, hne, Ne.symm hne]

theorem push_outcome (crc : Bytes → Word 4) (s : RecoveryAssembler) (lsn : Lsn) (record : LogRecord) :
    Outcome crc s lsn record (s.push crc lsn record) := by
  rw [push]
  split
  · next previous hlsn =>
    refine .refused fun h => ?_
    rw [filter_eq_none_iff.mpr h.lsn] at hlsn
    cases hlsn
  next hlsn =>
  have hlsn := filter_eq_none_iff.mp hlsn
  cases record with
  | mutation logged => exact pushMutation_outcome hlsn logged
  | abort txn => exact pushAbort_outcome hlsn txn
  | commit decision => exact pushCommit_outcome hlsn decision

end RecoveryAssembler

section Streams

variable {crc : Bytes → Word 4} {stream : List (Lsn × LogRecord)}

theorem recordsOf_cons (txn : TxnId) (lsn : Lsn) (record : LogRecord) (stream : List (Lsn × LogRecord)) :
    recordsOf txn ((lsn, record) :: stream) = if record.txn = txn then record :: recordsOf txn stream
      else recordsOf txn stream := by
  by_cases h : record.txn = txn <;> simp [recordsOf, h]

theorem mem_commitsOf {lsn : Lsn} {decision : CommitDecision} : (lsn, decision) ∈ commitsOf stream ↔
    (lsn, .commit decision) ∈ stream := by
  rw [commitsOf, List.mem_filterMap]
  constructor
  · rintro ⟨⟨position, record⟩, hmem, heq⟩
    cases record with
    | mutation => cases heq
    | abort => cases heq
    | commit => cases heq; exact hmem
  · exact fun hmem => ⟨_, hmem, rfl⟩

theorem recordsOf_ne_nil {commit : Lsn × CommitDecision} (h : commit ∈ commitsOf stream) :
    recordsOf commit.2.txn stream ≠ [] := by
  have hmem : LogRecord.commit commit.2 ∈ recordsOf commit.2.txn stream :=
    List.mem_filter.mpr ⟨List.mem_map.mpr ⟨_, mem_commitsOf.mp h, rfl⟩, by simp [LogRecord.txn]⟩
  exact List.ne_nil_of_mem hmem

theorem run_decided (records : List LogRecord) : (TxnLog.decided.run crc records).isSome ↔ records = [] := by
  cases records <;> simp [TxnLog.run, TxnLog.step]

theorem pairwise_toList_cons {α : Type} [LinearOrder α] {o : Option α} {a : α} {l : List α} :
    (o.toList ++ a :: l).Pairwise (· < ·) ↔ (∀ previous ∈ o, previous < a) ∧ (a :: l).Pairwise (· < ·) := by
  cases o with
  | none => simp
  | some previous =>
    simp only [Option.toList_some, List.singleton_append, List.pairwise_cons, List.mem_cons, Option.mem_def,
      Option.some.injEq, forall_eq', forall_eq_or_imp]
    constructor
    · exact fun h => ⟨h.1.1, h.2⟩
    · exact fun h => ⟨⟨h.1, fun b hb => h.1.trans (h.2.1 b hb)⟩, h.2⟩

namespace RecoveryAssembler

variable {s s' : RecoveryAssembler} {lsn : Lsn} {record : LogRecord}

/-- A stream is accepted if its positions advance, each transaction's own records are in order and the
numbers of the commits advance. -/
structure Accepts (crc : Bytes → Word 4) (s : RecoveryAssembler) (stream : List (Lsn × LogRecord)) : Prop where
  lsns : (s.lastLsn.toList ++ stream.map Prod.fst).Pairwise (· < ·)
  logs : ∀ txn, ((s.log txn).run crc (recordsOf txn stream)).isSome
  csns : (s.lastCsn.toList ++ (commitsOf stream).map fun commit => commit.2.csn).Pairwise (· < ·)

/-- What a stream gives out: its commits, each with the mutations of its transaction. -/
def emittedFrom (s : RecoveryAssembler) (stream : List (Lsn × LogRecord)) : List RecoveredTransaction :=
  (commitsOf stream).map fun commit =>
    ⟨commit.2.txn, commit.2.csn, commit.1, (s.log commit.2.txn).mutations ++ mutationsOf commit.2.txn stream⟩

theorem Accepts.head (h : s.Accepts crc ((lsn, record) :: stream)) : s.Admits crc lsn record where
  lsn := (pairwise_toList_cons.mp h.lsns).1
  log := by
    have hrun := h.logs record.txn
    rw [recordsOf_cons, if_pos rfl, TxnLog.run] at hrun
    cases hstep : (s.log record.txn).step crc record with
    | none => simp [hstep] at hrun
    | some log => rfl
  csn := by
    cases record with
    | mutation => trivial
    | abort => trivial
    | commit decision => exact (pairwise_toList_cons.mp h.csns).1

theorem Took.accepts_iff (htook : s.Took crc s' lsn record) (hadmits : s.Admits crc lsn record) :
    s.Accepts crc ((lsn, record) :: stream) ↔ s'.Accepts crc stream := by
  have hlsns : (s.lastLsn.toList ++ ((lsn, record) :: stream).map Prod.fst).Pairwise (· < ·) ↔
      (s'.lastLsn.toList ++ stream.map Prod.fst).Pairwise (· < ·) := by
    rw [htook.lastLsn, List.map_cons, pairwise_toList_cons]
    exact and_iff_right hadmits.lsn
  have hlogs : ∀ txn, (s.log txn).run crc (recordsOf txn ((lsn, record) :: stream)) =
      (s'.log txn).run crc (recordsOf txn stream) := by
    intro txn
    rw [recordsOf_cons]
    by_cases htxn : record.txn = txn
    · subst htxn
      rw [if_pos rfl, TxnLog.run, htook.own, Option.bind_some]
    · rw [if_neg htxn, htook.others txn (Ne.symm htxn)]
  have hcsns : (s.lastCsn.toList ++ (commitsOf ((lsn, record) :: stream)).map fun commit => commit.2.csn).Pairwise
    (· < ·) ↔
      (s'.lastCsn.toList ++ (commitsOf stream).map fun commit => commit.2.csn).Pairwise (· < ·) := by
    have hcsn := hadmits.csn
    have hlast := htook.lastCsn
    cases record with
    | mutation => rw [hlast]; rfl
    | abort => rw [hlast]; rfl
    | commit decision =>
      rw [hlast]
      exact pairwise_toList_cons.trans (and_iff_right hcsn)
  constructor
  · exact fun h => ⟨hlsns.mp h.lsns, fun txn => hlogs txn ▸ h.logs txn, hcsns.mp h.csns⟩
  · exact fun h => ⟨hlsns.mpr h.lsns, fun txn => (hlogs txn).symm ▸ h.logs txn, hcsns.mpr h.csns⟩

/-- What is given out for the rest is the same whether it is read from the start or from what the
first record leaves. -/
theorem Took.emittedFrom_eq (htook : s.Took crc s' lsn record) (haccepts : s'.Accepts crc stream) :
    s.emittedFrom ((lsn, record) :: stream) = (s.emitted lsn record).toList ++ s'.emittedFrom stream := by
  have hrest : ∀ commit ∈ commitsOf stream,
      (s.log commit.2.txn).mutations ++ mutationsOf commit.2.txn ((lsn, record) :: stream) =
        (s'.log commit.2.txn).mutations ++ mutationsOf commit.2.txn stream := by
    rintro ⟨position, decision⟩ hmem
    have hnonempty := recordsOf_ne_nil hmem
    dsimp only
    rw [mutationsOf, recordsOf_cons]
    by_cases htxn : record.txn = decision.txn
    · have hrun := haccepts.logs decision.txn
      have hown := htook.own
      rw [htxn] at hown
      cases hlog : s.log decision.txn with
      | decided =>
        rw [hlog] at hown
        cases hown
      | waiting mutations =>
        rw [hlog, TxnLog.step] at hown
        split at hown
        · cases record with
          | mutation logged =>
            rw [if_pos htxn, ← Option.some.inj hown]
            simp [TxnLog.after, TxnLog.mutations, mutationsOf]
          | commit | abort =>
            rw [← Option.some.inj hown] at hrun
            exact absurd ((run_decided _).mp hrun) hnonempty
        · cases hown
    · rw [if_neg htxn, htook.others _ (Ne.symm htxn)]
      rfl
  have htail : (commitsOf stream).map (fun commit => (⟨commit.2.txn, commit.2.csn, commit.1,
      (s.log commit.2.txn).mutations ++ mutationsOf commit.2.txn ((lsn, record) :: stream)⟩ : RecoveredTransaction)) =
        s'.emittedFrom stream :=
    List.map_congr_left fun commit hmem => by rw [hrest commit hmem]
  cases record with
  | mutation => exact htail
  | abort => exact htail
  | commit decision =>
    have hrun := haccepts.logs decision.txn
    rw [htook.decided, run_decided] at hrun
    have hhead : mutationsOf decision.txn ((lsn, .commit decision) :: stream) = [] := by
      rw [mutationsOf, recordsOf_cons, if_pos (show (LogRecord.commit decision).txn = decision.txn from rfl), hrun]
      rfl
    have hfirst :
      (⟨decision.txn, decision.csn, lsn, (s.log decision.txn).mutations ++
        mutationsOf decision.txn ((lsn, .commit decision) :: stream)⟩ :
        RecoveredTransaction) = ⟨decision.txn, decision.csn, lsn, (s.log decision.txn).mutations⟩ := by
      rw [hhead, List.append_nil]
    exact congrArg₂ List.cons hfirst htail

theorem feed_cases (crc : Bytes → Word 4) (s : RecoveryAssembler) (stream : List (Lsn × LogRecord)) :
    (s.Accepts crc stream ∧ ∃ s', s.feed crc stream = .ok (s.emittedFrom stream, s')) ∨
      (¬s.Accepts crc stream ∧ ∃ error, s.feed crc stream = .error error) := by
  induction stream generalizing s with
  | nil =>
    refine .inl ⟨⟨?_, fun txn => rfl, ?_⟩, s, rfl⟩
    · cases s.lastLsn <;> simp
    · cases s.lastCsn <;> simp [commitsOf]
  | cons item stream ih =>
    obtain ⟨lsn, record⟩ := item
    rw [feed]
    rcases push_outcome crc s lsn record with ⟨hadmits, hok, htook⟩ | ⟨hrefused, error, herror⟩
    · generalize s.push crc lsn record = pushed at hok htook
      obtain ⟨result, s'⟩ := pushed
      subst hok
      dsimp only
      rcases ih s' with ⟨haccepts, last, hfeed⟩ | ⟨hrefused, error, hfeed⟩
      · rw [hfeed]
        exact .inl ⟨(htook.accepts_iff hadmits).mpr haccepts, last, by rw [htook.emittedFrom_eq haccepts]⟩
      · rw [hfeed]
        exact .inr ⟨fun h => hrefused ((htook.accepts_iff hadmits).mp h), error, rfl⟩
    · generalize s.push crc lsn record = pushed at herror
      obtain ⟨result, s'⟩ := pushed
      subst herror
      exact .inr ⟨fun h => hrefused h.head, error, rfl⟩

theorem Accepts.nodup (h : s.Accepts crc stream) : ((commitsOf stream).map fun commit => commit.2.txn).Nodup := by
  induction stream generalizing s with
  | nil => simp [commitsOf]
  | cons item stream ih =>
    obtain ⟨lsn, record⟩ := item
    obtain ⟨hadmits, -, htook⟩ := (push_outcome crc s lsn record).resolve_right fun hrefused => hrefused.1 h.head
    have hrest := (htook.accepts_iff hadmits).mp h
    cases record with
    | mutation => exact ih hrest
    | abort => exact ih hrest
    | commit decision =>
      refine List.nodup_cons.mpr ⟨fun hmem => ?_, ih hrest⟩
      obtain ⟨commit, hcommit, htxn⟩ := List.mem_map.mp hmem
      have htxn : commit.2.txn = decision.txn := htxn
      have hrun := hrest.logs decision.txn
      rw [htook.decided, run_decided, ← htxn] at hrun
      exact recordsOf_ne_nil hcommit hrun

end RecoveryAssembler

theorem clampLength_mono {i j : ℕ} (h : i ≤ j) : clampLength i ≤ clampLength j := by
  have hval : ∀ n, (clampLength n).val = min n (256 ^ 4 - 1) := by
    intro n
    rw [clampLength, Word.ofLength?]
    split
    · next hlt => exact (min_eq_left (by omega)).symm
    · next hge => exact (min_eq_right (by omega)).symm
  rw [Fin.le_def, hval, hval]
  omega

theorem TxnLog.run_append (log : TxnLog) (first second : List LogRecord) :
    log.run crc (first ++ second) = (log.run crc first).bind fun log => log.run crc second := by
  induction first generalizing log with
  | nil => rfl
  | cons record first ih =>
    rw [List.cons_append, run, run, Option.bind_assoc]
    congr 1
    funext log
    exact ih log

def mutationRecords (records : List LogRecord) : List LoggedMutation :=
  records.filterMap fun
    | .mutation logged => some logged
    | _ => none

theorem mutationsOf_eq (txn : TxnId) (stream : List (Lsn × LogRecord)) :
    mutationsOf txn stream = mutationRecords (recordsOf txn stream) := rfl

theorem TxnLog.run_split {mutations : List LoggedMutation} {before after : List LogRecord} {record : LogRecord}
    (hrecord : ∀ logged, record ≠ .mutation logged)
    (h : ((TxnLog.waiting mutations).run crc (before ++ record :: after)).isSome) :
    after = [] ∧ ∀ earlier ∈ before, ∃ logged, earlier = .mutation logged := by
  induction before generalizing mutations with
  | nil =>
    rw [List.nil_append, run, step] at h
    split at h
    · have hafter : TxnLog.after mutations record = .decided := by
        cases record with
        | mutation logged => exact absurd rfl (hrecord logged)
        | commit => rfl
        | abort => rfl
      rw [Option.bind_some, hafter, run_decided] at h
      exact ⟨h, by simp⟩
    · simp at h
  | cons first before ih =>
    rw [List.cons_append, run, step] at h
    split at h
    · rw [Option.bind_some] at h
      cases first with
      | mutation logged =>
        obtain ⟨hafter, hbefore⟩ := ih h
        refine ⟨hafter, fun earlier hmem => ?_⟩
        rcases List.mem_cons.mp hmem with rfl | hmem
        · exact ⟨logged, rfl⟩
        · exact hbefore earlier hmem
      | commit | abort => exact absurd ((run_decided _).mp h) (by simp)
    · simp at h

theorem TxnLog.run_ordinals {mutations : List LoggedMutation} {records : List LogRecord}
    (h : ((TxnLog.waiting mutations).run crc records).isSome) {i : ℕ} {logged : LoggedMutation}
    (hget : (mutationRecords records)[i]? = some logged) : logged.ordinal = clampLength (mutations.length + i) := by
  induction records generalizing mutations i with
  | nil => simp [mutationRecords] at hget
  | cons record records ih =>
    rw [run, step] at h
    split at h
    · next hfits =>
      rw [Option.bind_some] at h
      cases record with
      | mutation first =>
        cases i with
        | zero =>
          cases hget
          exact hfits.2
        | succ i =>
          have hlater := ih h hget
          rw [List.length_append, List.length_singleton] at hlater
          rw [hlater, Nat.add_assoc, Nat.add_comm 1 i]
      | commit | abort =>
        rw [(run_decided _).mp h] at hget
        simp [mutationRecords] at hget
    · simp at h

theorem recordsOf_append (txn : TxnId) (first second : List (Lsn × LogRecord)) :
    recordsOf txn (first ++ second) = recordsOf txn first ++ recordsOf txn second := by
  simp [recordsOf]

def RecoveredTransaction.logical (transaction : RecoveredTransaction) : TxnId × Word 8 × List LoggedMutation :=
  (transaction.txn, transaction.csn, transaction.mutations)

open RecoveryAssembler in
/-- Of a stream that is accepted, every commit gives out a transaction at its position, with the
mutations of the transaction before it and in the order of their ordinals; no transaction is given out
twice or after an abort; the numbers increase; and another interleaving of the same transactions, with
the commits in the same order, gives out the same. -/
theorem assembler_emits {last : RecoveryAssembler} {emitted : List RecoveredTransaction}
    (h : RecoveryAssembler.new.feed crc stream = .ok (emitted, last)) :
    (emitted.map fun transaction => (transaction.lsn, transaction.txn, transaction.csn)) =
        ((commitsOf stream).map fun commit => (commit.1, commit.2.txn, commit.2.csn)) ∧
      (∀ transaction ∈ emitted, ∃ before decision after, stream = before ++
        (transaction.lsn, .commit decision) :: after ∧
        decision.txn = transaction.txn ∧ transaction.mutations = mutationsOf transaction.txn before ∧
        (transaction.mutations.map LoggedMutation.ordinal).Pairwise (· ≤ ·) ∧
        ∀ item ∈ before, item.2 ≠ .abort transaction.txn) ∧
      (emitted.map RecoveredTransaction.txn).Nodup ∧ (emitted.map RecoveredTransaction.csn).Pairwise (· < ·) ∧
      ∀ other : List (Lsn × LogRecord), (other.map Prod.fst).Pairwise (· < ·) →
        (∀ txn, recordsOf txn other = recordsOf txn stream) →
        (commitsOf other).map Prod.snd = (commitsOf stream).map Prod.snd →
        ∃ emitted' last', RecoveryAssembler.new.feed crc other = .ok (emitted', last') ∧
          emitted'.map RecoveredTransaction.logical = emitted.map RecoveredTransaction.logical := by
  rcases feed_cases crc .new stream with ⟨haccepts, last', hfeed⟩ | ⟨-, error, hfeed⟩
  swap
  · cases h.symm.trans hfeed
  cases h.symm.trans hfeed
  have hempty : ∀ txn, RecoveryAssembler.new.log txn = .waiting [] :=
    fun txn => by simp [log, RecoveryAssembler.new, waiting]
  have hlogical : ∀ stream, (RecoveryAssembler.new.emittedFrom stream).map RecoveredTransaction.logical =
      ((commitsOf stream).map Prod.snd).map fun decision =>
        (decision.txn, decision.csn, mutationsOf decision.txn stream) := by
    intro stream
    rw [emittedFrom, List.map_map, List.map_map]
    refine List.map_congr_left fun commit _ => ?_
    simp [RecoveredTransaction.logical, hempty, TxnLog.mutations]
  refine ⟨by simp [emittedFrom], ?_, ?_, ?_, ?_⟩
  · intro transaction hmem
    obtain ⟨⟨lsn, decision⟩, hcommit, rfl⟩ := List.mem_map.mp hmem
    obtain ⟨before, after, rfl⟩ := List.append_of_mem (mem_commitsOf.mp hcommit)
    have hrun := haccepts.logs decision.txn
    have hrecords : recordsOf decision.txn (before ++ (lsn, .commit decision) :: after) =
        recordsOf decision.txn before ++ .commit decision :: recordsOf decision.txn after := by
      rw [recordsOf_append, recordsOf_cons, if_pos (show (LogRecord.commit decision).txn = decision.txn from rfl)]
    rw [hempty, hrecords] at hrun
    obtain ⟨hafter, hbefore⟩ := TxnLog.run_split (by simp) hrun
    have hmutations : mutationsOf decision.txn (before ++ (lsn, .commit decision) :: after) =
        mutationsOf decision.txn before := by
      rw [mutationsOf_eq, hrecords, hafter, mutationsOf_eq, mutationRecords, List.filterMap_append]
      simp [mutationRecords]
    refine ⟨before, decision, after, rfl, rfl, by rw [hempty, hmutations]; rfl, ?_, ?_⟩
    · have hall := haccepts.logs decision.txn
      rw [hempty] at hall ⊢
      show (List.map LoggedMutation.ordinal (mutationsOf decision.txn _)).Pairwise (· ≤ ·)
      rw [List.pairwise_map, List.pairwise_iff_getElem]
      intro i j hi hj hij
      have hfirst := TxnLog.run_ordinals hall (List.getElem?_eq_getElem hi)
      have hsecond := TxnLog.run_ordinals hall (List.getElem?_eq_getElem hj)
      rw [hfirst, hsecond]
      exact clampLength_mono (by omega)
    · rintro ⟨position, record⟩ hitem rfl
      have habort : LogRecord.abort decision.txn ∈ recordsOf decision.txn before :=
        List.mem_filter.mpr ⟨List.mem_map.mpr ⟨_, hitem, rfl⟩, by simp [LogRecord.txn]⟩
      obtain ⟨logged, heq⟩ := hbefore _ habort
      cases heq
  · have hnodup := haccepts.nodup
    rwa [emittedFrom, List.map_map]
  · have hcsns := haccepts.csns
    rwa [emittedFrom, List.map_map]
  · intro other hlsns hrecords hcommits
    have hother : RecoveryAssembler.new.Accepts crc other := by
      refine ⟨hlsns, fun txn => ?_, ?_⟩
      · rw [hrecords]
        exact haccepts.logs txn
      · have hcsns := haccepts.csns
        have hmap : ∀ stream, ((commitsOf stream).map fun commit => commit.2.csn) =
            ((commitsOf stream).map Prod.snd).map CommitDecision.csn := by
          intro stream
          rw [List.map_map]
          rfl
        rwa [hmap, hcommits, ← hmap]
    obtain ⟨-, last', hfeed'⟩ := (feed_cases crc .new other).resolve_right fun hrefused => hrefused.1 hother
    refine ⟨_, last', hfeed', ?_⟩
    rw [hlogical, hlogical, hcommits]
    refine List.map_congr_left fun decision _ => ?_
    rw [mutationsOf_eq, mutationsOf_eq, hrecords]

/-- Two transactions whose records alternate, the second committed first. -/
def alternatingStream : List (Lsn × LogRecord) :=
  [(1, .mutation ⟨1, 0, 1, .orderedPut, [1], [2]⟩), (2, .mutation ⟨2, 0, 1, .orderedPut, [3], [4]⟩),
    (3, .commit ⟨2, 1, 1, 0⟩), (4, .commit ⟨1, 2, 1, 0⟩)]

theorem assembler_emits_alternating :
    ∃ emitted last, RecoveryAssembler.new.feed (fun _ => 0) alternatingStream = .ok (emitted, last) ∧
      emitted.map RecoveredTransaction.txn = [2, 1] ∧ (emitted.map RecoveredTransaction.csn).Pairwise (· < ·) := by
  have htxns : ((RecoveryAssembler.new.feed (fun _ => 0) alternatingStream).toOption.map fun fed =>
    fed.1.map RecoveredTransaction.txn) =
      some [2, 1] := by decide +kernel
  cases hfeed : RecoveryAssembler.new.feed (fun _ => 0) alternatingStream with
  | error error => simp [hfeed, Except.toOption] at htxns
  | ok fed =>
    obtain ⟨emitted, last⟩ := fed
    rw [hfeed] at htxns
    exact ⟨emitted, last, rfl, Option.some.inj htxns, (assembler_emits hfeed).2.2.2.1⟩

end Streams

end OmenDb.Vnext
