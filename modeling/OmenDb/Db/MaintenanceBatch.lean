import OmenDb.Vnext.Page

/-! Maintenance batches of the production store: rewrites that become durable without a logical commit.
The candidate is built beside the live tree and checked for space, then installed, and only then does
the publication ask for space again. -/
namespace OmenDb.Db

open Vnext (BlobPointer)

inductive Error
  | closed
  | readOnly
  | needsRecovery
  | maintenanceInProgress
  | diskFull
  | capacityPreflight
  | corruption
  | invalidArgument
  | io
  deriving DecidableEq

inductive LookupResult
  | found (value : Bytes)
  | blob (pointer : BlobPointer)
  | deleted
  | notFound

inductive BatchMutation
  | put (key value : Bytes)
  | delete (key : Bytes)

/-- The operations of a tree and of a blob store that a mutation calls. -/
structure Parts (Tree Blobs : Type) where
  rootId : Tree → ℕ
  lookup : Tree → Bytes → Except Error LookupResult
  upsert : Tree → Bytes → Bytes → Except Error Tree
  upsertBlob : Tree → Bytes → BlobPointer → Except Error Tree
  delete : Tree → Bytes → Except Error (Bool × Tree)
  shouldSeparate : Blobs → ℕ → Bool
  append : Blobs → Bytes → Bytes → Except Error (BlobPointer × Blobs)
  markDeleted : Blobs → BlobPointer → Bool × Blobs
  read : Blobs → BlobPointer → Option Bytes

section Store

variable {Tree Blobs : Type} (parts : Parts Tree Blobs)

structure MutationOutcome where
  blobChanged : Bool
  blobDeletionSucceeded : Bool

def previousBlob (tree : Tree) (key : Bytes) : Except Error (Option BlobPointer) := do
  match ← parts.lookup tree key with
  | .blob pointer => return some pointer
  | _ => return none

/-- The value goes into the tree, or into the blobs with a pointer in the tree. -/
def store (key value : Bytes) (tree : Tree) (blobs : Blobs) : Except Error (Tree × Blobs) :=
  if parts.shouldSeparate blobs value.length then do
    let (pointer, blobs) ← parts.append blobs key value
    let tree ← parts.upsertBlob tree key pointer
    return (tree, blobs)
  else do
    let tree ← parts.upsert tree key value
    return (tree, blobs)

def applyPut (key value : Bytes) (tree : Tree) (blobs : Blobs) :
    Except Error (MutationOutcome × Tree × Blobs) := do
  let previous ← previousBlob parts tree key
  let (tree, stored) ← store parts key value tree blobs
  let (succeeded, retired) := previous.elim (true, stored) (parts.markDeleted stored)
  return (⟨parts.shouldSeparate blobs value.length || previous.isSome, succeeded⟩, tree, retired)

def applyDelete (key : Bytes) (tree : Tree) (blobs : Blobs) : Except Error (MutationOutcome × Tree × Blobs) := do
  let previous ← previousBlob parts tree key
  let (changed, tree) ← parts.delete tree key
  let (succeeded, retired) :=
    if changed then previous.elim (true, blobs) (parts.markDeleted blobs) else (true, blobs)
  return (⟨changed && previous.isSome, succeeded⟩, tree, retired)

/-- `validate_wal_put_lengths` and `validate_wal_key_length`, then `mutation::apply`. -/
def apply : BatchMutation → Tree → Blobs → Except Error (MutationOutcome × Tree × Blobs)
  | .put key value, tree, blobs =>
    if key.length < 2 ^ 32 ∧ value.length < 2 ^ 32 then applyPut parts key value tree blobs
    else .error .invalidArgument
  | .delete key, tree, blobs =>
    if key.length < 2 ^ 32 then applyDelete parts key tree blobs else .error .invalidArgument

def applyAll : List BatchMutation → Tree → Blobs → Bool → Except Error (Tree × Blobs × Bool)
  | [], tree, blobs, changed => .ok (tree, blobs, changed)
  | mutation :: mutations, tree, blobs, changed => do
    let (outcome, tree, blobs) ← apply parts mutation tree blobs
    if outcome.blobDeletionSucceeded then applyAll mutations tree blobs (changed || outcome.blobChanged)
    else .error .corruption

def pageSize : ℕ := 4096
def safetyBytes : ℕ := 8 * pageSize

/-- An amount that is computed with checked arithmetic, and the space there is. -/
def admitSpace (required available : ℕ) : Except Error Unit :=
  if 2 ^ 64 ≤ required then .error .diskFull
  else if available < required then .error .capacityPreflight
  else .ok ()

/-- What `preflight_publication_capacity` adds up. -/
structure Footprint where
  dirtyPages : ℕ
  reusedPages : ℕ
  pmtLength : ℕ
  allocatorLength : ℕ
  checkpointMeta : ℕ
  metaFile : Bool
  blobBytes : ℕ
  historyBytes : ℕ

def Footprint.fullMeta (footprint : Footprint) : ℕ :=
  24 + (footprint.pmtLength + footprint.dirtyPages * 28) + (footprint.allocatorLength + footprint.dirtyPages * 8)

def Footprint.required (footprint : Footprint) : ℕ :=
  (footprint.dirtyPages - footprint.reusedPages) * pageSize + footprint.checkpointMeta +
    (if footprint.metaFile then 0 else footprint.fullMeta) + footprint.blobBytes + footprint.historyBytes + safetyBytes

/-- What a publication meets: the position of its commit record, the space, then a step that fails, and
whether the frame was durable by then. The last three are for a group under WAL-first commits: whether a
consolidation makes it publish in full, its append fails, the bound on unframed commits is reached. -/
structure Publication where
  lsn : ℕ
  footprint : Footprint
  available : ℕ
  fault : Option Error
  framed : Bool
  consolidates : Bool
  walFails : Bool
  bound : Bool

def Publication.answer (publication : Publication) : Except Error Unit := do
  admitSpace publication.footprint.required publication.available
  publication.fault.elim (.ok ()) .error

structure Identity where
  generationId : ℕ
  commitId : ℕ
  commitSeq : ℕ
  lsn : ℕ
  deriving DecidableEq

structure Manifest where
  identity : Identity
  rootPageId : ℕ
  deriving DecidableEq

structure DB (Tree Blobs : Type) where
  isOpen : Bool
  readOnly : Bool
  checkOnly : Bool
  locked : Bool
  writeFenced : Bool
  vacuum : Bool
  walFirst : Bool
  tree : Tree
  blobs : Blobs
  /-- What opening the directory gives. -/
  durable : (Tree × Blobs) × Identity
  manifest : Manifest
  current : Identity
  nextGenerationId : ℕ
  nextCommitId : ℕ
  nextCommitSeq : ℕ
  envelopes : Bool
  pendingMutations : ℕ
  pendingWalBytes : ℕ
  pendingDigest : ℕ
  walReservedExtent : ℕ
  maxWalBytes : ℕ
  pendingBlobs : Bool
  /-- The newest WAL-first commit, while no frame names it. -/
  unframed : Option Identity
  deriving DecidableEq

def DB.LocksHeld (db : DB Tree Blobs) : Prop :=
  (db.checkOnly = true → db.readOnly = true) ∧ ¬(db.readOnly = true ∧ db.locked = true) ∧
    (db.isOpen = true → db.readOnly = false → db.locked = true) ∧ (db.isOpen = false → db.locked = false)

def DB.IdentitiesAhead (db : DB Tree Blobs) : Prop :=
  db.current.commitId < db.nextCommitId ∧ db.current.commitSeq < db.nextCommitSeq ∧
    db.current.generationId < db.nextGenerationId

/-- `validate_published_frontier`: the manifest names the coordinator's position and, when nothing is
pending, the root of the tree. Unframed commits may be ahead of it. -/
def DB.FrontierHolds (root : ℕ) (db : DB Tree Blobs) : Prop :=
  (db.unframed.isSome = true →
    db.manifest.identity.generationId ≤ db.current.generationId ∧
      db.manifest.identity.commitId ≤ db.current.commitId ∧ db.manifest.identity.commitSeq ≤ db.current.commitSeq) ∧
  (db.unframed.isSome = false →
    db.manifest.identity = db.current ∧ (db.pendingMutations = 0 → db.manifest.rootPageId = root))

def DB.PendingHolds (db : DB Tree Blobs) : Prop :=
  (db.pendingMutations = 0 → db.pendingWalBytes = 0 ∧ db.pendingDigest = 0 ∧ db.pendingBlobs = false) ∧
  (db.pendingMutations ≠ 0 →
    0 < db.pendingWalBytes ∧ db.pendingWalBytes ≤ db.maxWalBytes ∧ db.pendingWalBytes ≤ db.walReservedExtent)

/-- What `validate_runtime_state` asks; each of its refusals is a corruption. -/
def ValidRuntimeState (db : DB Tree Blobs) : Prop :=
  db.LocksHeld ∧ db.IdentitiesAhead ∧ (db.writeFenced = false → db.FrontierHolds (parts.rootId db.tree)) ∧
    db.PendingHolds

instance (db : DB Tree Blobs) : Decidable (ValidRuntimeState parts db) := by
  unfold ValidRuntimeState DB.LocksHeld DB.IdentitiesAhead DB.FrontierHolds DB.PendingHolds
  infer_instance

def checkOpen (db : DB Tree Blobs) : Except Error Unit :=
  if !db.isOpen then .error .closed else if ValidRuntimeState parts db then .ok () else .error .corruption

def checkReadable (db : DB Tree Blobs) : Except Error Unit := do
  checkOpen parts db
  if db.writeFenced then .error .needsRecovery else .ok ()

def checkWritable (db : DB Tree Blobs) : Except Error Unit := do
  checkOpen parts db
  if db.readOnly then .error .readOnly else if db.writeFenced then .error .needsRecovery else .ok ()

def checkMaintenanceIdle (db : DB Tree Blobs) : Except Error Unit :=
  if db.vacuum then .error .maintenanceInProgress else .ok ()

def DB.nextIdentity (db : DB Tree Blobs) (lsn : ℕ) : Identity :=
  ⟨db.nextGenerationId, db.nextCommitId, db.nextCommitSeq, lsn⟩

/-- The state once a frame names the position. -/
def DB.finish (db : DB Tree Blobs) (identity : Identity) : DB Tree Blobs :=
  { db with
    durable := ((db.tree, db.blobs), identity)
    manifest := ⟨identity, parts.rootId db.tree⟩
    current := identity
    nextGenerationId := max db.nextGenerationId (identity.generationId + 1)
    nextCommitId := max db.nextCommitId (identity.commitId + 1)
    nextCommitSeq := max db.nextCommitSeq (identity.commitSeq + 1)
    envelopes := false
    pendingMutations := 0
    pendingWalBytes := 0
    pendingDigest := 0
    pendingBlobs := false
    unframed := none }

/-- The pages, the blobs and the frame of one generation, once there is space for them. -/
def conclude (db : DB Tree Blobs) (identity : Identity) (framed : Bool) :
    Except Error Unit → Option Error → Except Error Unit × DB Tree Blobs
  | .error error, _ => (.error error, db)
  | .ok (), some error =>
    (.error error, { db with durable := if framed then ((db.tree, db.blobs), identity) else db.durable })
  | .ok (), none => (.ok (), db.finish parts identity)

def publish (db : DB Tree Blobs) (identity : Identity) (publication : Publication) :
    Except Error Unit × DB Tree Blobs :=
  conclude parts db identity publication.framed
    (admitSpace publication.footprint.required publication.available) publication.fault

def fenceUnlessPreflight (result : Except Error Unit × DB Tree Blobs) : Except Error Unit × DB Tree Blobs :=
  match result with
  | (.ok (), db) => (.ok (), db)
  | (.error .capacityPreflight, db) => (.error .capacityPreflight, db)
  | (.error error, db) => (.error error, { db with writeFenced := true })

/-- `publish_envelope_group_wal_first`: the synced commit record acknowledges the group. -/
def DB.acknowledge (db : DB Tree Blobs) (lsn : ℕ) : DB Tree Blobs :=
  { db with
    durable := ((db.tree, db.blobs), db.nextIdentity lsn)
    current := db.nextIdentity lsn
    nextGenerationId := db.nextGenerationId + 1
    nextCommitId := db.nextCommitId + 1
    nextCommitSeq := db.nextCommitSeq + 1
    envelopes := false
    pendingMutations := 0
    pendingWalBytes := 0
    pendingDigest := 0
    pendingBlobs := false
    unframed := some (db.nextIdentity lsn) }

def materializeUnframedCommit (db : DB Tree Blobs) (publication : Publication) : Except Error Unit × DB Tree Blobs :=
  match db.unframed with
  | none => (.ok (), db)
  | some identity => fenceUnlessPreflight (publish parts db identity publication)

def publicationBarrier (db : DB Tree Blobs) (publication : Publication) : Except Error Unit × DB Tree Blobs :=
  if db.walFirst && !publication.consolidates then
    if publication.walFails then (.error .io, { db with writeFenced := true })
    else if publication.bound then materializeUnframedCommit parts (db.acknowledge publication.lsn) publication
    else (.ok (), db.acknowledge publication.lsn)
  else fenceUnlessPreflight (publish parts db (db.nextIdentity publication.lsn) publication)

def flush (db : DB Tree Blobs) (publication : Publication) : Except Error Unit × DB Tree Blobs :=
  match checkWritable parts db >>= fun _ => checkMaintenanceIdle db with
  | .error error => (.error error, db)
  | .ok () =>
    if db.envelopes then publicationBarrier parts db publication
    else if db.pendingMutations = 0 then materializeUnframedCommit parts db publication
    else fenceUnlessPreflight (publish parts db (db.nextIdentity publication.lsn) publication)

/-- `DB::open` of a directory that a writer left. -/
def reopen (db : DB Tree Blobs) : DB Tree Blobs :=
  { db with
    isOpen := true
    readOnly := false
    checkOnly := false
    locked := true
    writeFenced := false
    vacuum := false
    tree := db.durable.1.1
    blobs := db.durable.1.2
    manifest := ⟨db.durable.2, parts.rootId db.durable.1.1⟩
    current := db.durable.2
    nextGenerationId := db.durable.2.generationId + 1
    nextCommitId := db.durable.2.commitId + 1
    nextCommitSeq := db.durable.2.commitSeq + 1
    envelopes := false
    pendingMutations := 0
    pendingWalBytes := 0
    pendingDigest := 0
    walReservedExtent := 0
    pendingBlobs := false
    unframed := none }

/-- What the candidate meets: its sizes, the space, and the checks of the engine behind it. -/
structure Preparation where
  nodeCount : ℕ
  metadataBytes : ℕ
  blobBytes : ℕ
  historyBytes : ℕ
  available : ℕ
  refusal : Option Error

def Preparation.answer (preparation : Preparation) : Except Error Unit := do
  admitSpace (preparation.nodeCount * pageSize + preparation.metadataBytes + preparation.blobBytes +
    preparation.historyBytes + safetyBytes) preparation.available
  preparation.refusal.elim (.ok ()) .error

def prepareMaintenanceCandidate (db : DB Tree Blobs) (mutations : List BatchMutation) (preparation : Preparation) :
    Except Error (Tree × Blobs × Bool) := do
  let candidate ← applyAll parts mutations db.tree db.blobs false
  preparation.answer
  return candidate

def DB.install (db : DB Tree Blobs) (candidate : Tree × Blobs × Bool) : DB Tree Blobs :=
  { db with tree := candidate.1, blobs := candidate.2.1, pendingBlobs := db.pendingBlobs || candidate.2.2 }

/-- The frame of a batch keeps the logical position, and unframed commits stay so. -/
def keepPosition (db : DB Tree Blobs) : Except Error Unit × DB Tree Blobs → Except Error Unit × DB Tree Blobs
  | (.ok (), after) =>
    (.ok (), { after with
      manifest := ⟨{ db.manifest.identity with generationId := db.nextGenerationId }, after.manifest.rootPageId⟩
      unframed := db.unframed })
  | (.error error, after) => (.error error, after)

/-- The candidate is installed before its publication asks for space. -/
def publishMaintenanceBatch (db : DB Tree Blobs) (candidate : Tree × Blobs × Bool) (publication : Publication) :
    Except Error Unit × DB Tree Blobs :=
  keepPosition db
    (publish parts (db.install candidate) { db.current with generationId := db.nextGenerationId } publication)

structure Circumstances where
  settle : Publication
  preparation : Preparation
  publication : Publication

def commitMaintenanceBatch (db : DB Tree Blobs) (mutations : List BatchMutation) (met : Circumstances) :
    Except Error Unit × DB Tree Blobs :=
  match flush parts db met.settle with
  | (.error error, db) => (.error error, db)
  | (.ok (), db) =>
    if mutations.isEmpty then (.ok (), db)
    else
      match prepareMaintenanceCandidate parts db mutations met.preparation with
      | .error error => (.error error, db)
      | .ok candidate => fenceUnlessPreflight (publishMaintenanceBatch parts db candidate met.publication)

def contents (tree : Tree) (blobs : Blobs) (key : Bytes) : Except Error (Option Bytes) := do
  match ← parts.lookup tree key with
  | .found value => return some value
  | .blob pointer => (parts.read blobs pointer).elim (.error .corruption) fun value => .ok (some value)
  | _ => return none

def get (db : DB Tree Blobs) (key : Bytes) : Except Error (Option Bytes) := do
  checkReadable parts db
  contents parts db.tree db.blobs key

/-- Nothing is pending, and what opening gives is what is read. -/
structure Settled (db : DB Tree Blobs) : Prop where
  envelopes : db.envelopes = false
  mutations : db.pendingMutations = 0
  unframed : db.unframed = none
  durable : contents parts db.durable.1.1 db.durable.1.2 = contents parts db.tree db.blobs

/-- Reads are still served, and they and later publications and reopens see what was there before. -/
structure Unchanged (before after : DB Tree Blobs) : Prop where
  readable : checkReadable parts after = .ok ()
  reads : get parts after = get parts before
  published : ∀ identity publication db, publish parts after identity publication = (.ok (), db) →
    get parts db = get parts before ∧ get parts (reopen parts db) = get parts before
  reopened : Settled parts before → get parts (reopen parts after) = get parts before

variable {parts} {before after db : DB Tree Blobs} {identity : Identity} {publication : Publication}
  {result : Except Error Unit}

/-- Open to reads and writes, with every relation of the handle intact. -/
structure Sound (parts : Parts Tree Blobs) (db : DB Tree Blobs) : Prop where
  isOpen : db.isOpen = true
  writable : db.readOnly = false
  unfenced : db.writeFenced = false
  valid : ValidRuntimeState parts db

theorem checkOpen_ok_iff : checkOpen parts db = .ok () ↔ db.isOpen = true ∧ ValidRuntimeState parts db := by
  rw [checkOpen]
  cases db.isOpen <;> by_cases hvalid : ValidRuntimeState parts db <;> simp [hvalid]

theorem checkReadable_ok_iff :
    checkReadable parts db = .ok () ↔ db.isOpen = true ∧ ValidRuntimeState parts db ∧ db.writeFenced = false := by
  rw [checkReadable, ← and_assoc, ← checkOpen_ok_iff]
  cases checkOpen parts db with
  | error error => exact iff_of_false (by rintro ⟨⟩) (by rintro ⟨⟨⟩, -⟩)
  | ok =>
    rw [ok_bind]
    cases db.writeFenced <;> simp

theorem sound_of_writable (h : checkWritable parts db = .ok ()) : Sound parts db := by
  obtain ⟨_, hopen, hflags⟩ := bind_eq_ok.mp h
  obtain ⟨hopen, hvalid⟩ := checkOpen_ok_iff.mp hopen
  cases hwritable : db.readOnly <;> cases hfence : db.writeFenced <;> simp [hwritable, hfence] at hflags
  exact ⟨hopen, hwritable, hfence, hvalid⟩

theorem Sound.readable (h : Sound parts db) : checkReadable parts db = .ok () :=
  checkReadable_ok_iff.mpr ⟨h.isOpen, h.valid, h.unfenced⟩

theorem get_of_readable (h : checkReadable parts db = .ok ()) : get parts db = contents parts db.tree db.blobs := by
  funext key
  rw [get, h]
  rfl

theorem reopen_sound (db : DB Tree Blobs) : Sound parts (reopen parts db) := by
  refine ⟨rfl, rfl, rfl, ?_⟩
  simp [ValidRuntimeState, reopen, DB.LocksHeld, DB.IdentitiesAhead, DB.FrontierHolds, DB.PendingHolds]

/-- Publishing mends every relation: the manifest, the root and the counters are those of the handle. -/
theorem Sound.finish (h : Sound parts db) (identity : Identity) : Sound parts (db.finish parts identity) := by
  refine ⟨h.isOpen, h.writable, h.unfenced, h.valid.1, ?_, ?_, ?_⟩
  · simp [DB.IdentitiesAhead, DB.finish]
  · simp [DB.FrontierHolds, DB.finish]
  · simp [DB.PendingHolds, DB.finish]

theorem Sound.acknowledge (h : Sound parts db) (lsn : ℕ) : Sound parts (db.acknowledge lsn) := by
  obtain ⟨hlocks, ⟨hcommit, hseq, hgeneration⟩, hfrontier, -⟩ := h.valid
  refine ⟨h.isOpen, h.writable, h.unfenced, hlocks, ?_, ?_, ?_⟩
  · simp [DB.IdentitiesAhead, DB.acknowledge, DB.nextIdentity]
  · -- the manifest is not ahead of the old position, which is behind the next one
    have hbehind : db.manifest.identity.generationId ≤ db.current.generationId ∧
        db.manifest.identity.commitId ≤ db.current.commitId ∧
        db.manifest.identity.commitSeq ≤ db.current.commitSeq := by
      cases hunframed : db.unframed.isSome with
      | true => exact (hfrontier h.unfenced).1 hunframed
      | false =>
        rw [((hfrontier h.unfenced).2 hunframed).1]
        exact ⟨le_rfl, le_rfl, le_rfl⟩
    simp only [DB.FrontierHolds, DB.acknowledge, DB.nextIdentity]
    exact fun _ => ⟨fun _ => by omega, fun hnone => by cases hnone⟩
  · simp [DB.PendingHolds, DB.acknowledge]

/-- Installing a candidate breaks the handle if it changes a blob, or moves the root while a manifest names
it. -/
theorem Sound.install_iff (h : Sound parts db) (hclean : db.pendingMutations = 0) (candidate : Tree × Blobs × Bool) :
    checkReadable parts (db.install candidate) = .ok () ↔
      candidate.2.2 = false ∧ (db.unframed.isSome = true ∨ parts.rootId candidate.1 = parts.rootId db.tree) := by
  obtain ⟨hlocks, hahead, hfrontier, hpending⟩ := h.valid
  have hfrontier := hfrontier h.unfenced
  have hpending' : (db.install candidate).PendingHolds ↔ candidate.2.2 = false := by
    simp [DB.PendingHolds, DB.install, hclean, hpending.1 hclean]
  have hfrontier' : (db.install candidate).FrontierHolds (parts.rootId candidate.1) ↔
      db.unframed.isSome = true ∨ parts.rootId candidate.1 = parts.rootId db.tree := by
    simp only [DB.FrontierHolds, DB.install]
    cases hunframed : db.unframed.isSome with
    | true => simpa using hfrontier.1 hunframed
    | false =>
      obtain ⟨hcurrent, hroot⟩ := hfrontier.2 hunframed
      simp [hcurrent, hclean, hroot hclean, eq_comm]
  rw [checkReadable_ok_iff, ← hpending', ← hfrontier']
  constructor
  · rintro ⟨-, ⟨-, -, hfrontier, hpending⟩, -⟩
    exact ⟨hpending, hfrontier h.unfenced⟩
  · rintro ⟨hpending, hfrontier⟩
    exact ⟨h.isOpen, ⟨hlocks, hahead, fun _ => hfrontier, hpending⟩, h.unfenced⟩

/-- The same image to read, and what was durable or is durable now. -/
structure Kept (before after : DB Tree Blobs) : Prop where
  tree : after.tree = before.tree
  blobs : after.blobs = before.blobs
  durable : after.durable.1 = before.durable.1 ∨ after.durable.1 = (before.tree, before.blobs)

theorem Kept.refl (db : DB Tree Blobs) : Kept db db := ⟨rfl, rfl, .inl rfl⟩

/-- What a publication that fails leaves: the same handle, over what was durable or over its own image. -/
theorem publish_error {error : Error} (h : publish parts db identity publication = (.error error, after)) :
    ∃ durable, after = { db with durable := durable } ∧
      (durable.1 = db.durable.1 ∨ durable.1 = (db.tree, db.blobs)) := by
  rw [publish] at h
  cases hspace : admitSpace publication.footprint.required publication.available with
  | error error =>
    rw [hspace] at h
    cases h
    exact ⟨_, rfl, .inl rfl⟩
  | ok =>
    cases hfault : publication.fault with
    | none =>
      rw [hspace, hfault] at h
      cases h
    | some error =>
      rw [hspace, hfault] at h
      cases h
      refine ⟨_, rfl, ?_⟩
      cases publication.framed
      · exact .inl rfl
      · exact .inr rfl

theorem publish_result (h : publish parts db identity publication = (result, after)) :
    result = publication.answer ∧ (result = .ok () → after = db.finish parts identity) := by
  rw [publish] at h
  rw [Publication.answer]
  cases hspace : admitSpace publication.footprint.required publication.available with
  | error error =>
    rw [hspace] at h
    cases h
    exact ⟨rfl, fun h => by cases h⟩
  | ok =>
    cases hfault : publication.fault with
    | none =>
      rw [hspace, hfault] at h
      cases h
      exact ⟨rfl, fun _ => rfl⟩
    | some error =>
      rw [hspace, hfault] at h
      cases h
      exact ⟨rfl, fun h => by cases h⟩

theorem publish_kept (h : publish parts db identity publication = (result, after)) :
    Kept db after ∧ (Sound parts db → Sound parts after) := by
  cases result with
  | ok =>
    rw [(publish_result h).2 rfl]
    exact ⟨⟨rfl, rfl, .inr rfl⟩, fun hsound => hsound.finish identity⟩
  | error error =>
    obtain ⟨durable, rfl, hdurable⟩ := publish_error h
    exact ⟨⟨rfl, rfl, hdurable⟩, fun hsound => ⟨hsound.isOpen, hsound.writable, hsound.unfenced, hsound.valid⟩⟩

theorem keepPosition_error {outcome : Except Error Unit × DB Tree Blobs} {error : Error}
    (h : keepPosition db outcome = (.error error, after)) : outcome = (.error error, after) := by
  obtain ⟨answer, published⟩ := outcome
  cases answer with
  | ok => cases h
  | error error =>
    cases h
    rfl

/-- A refused batch is left installed. -/
theorem publishMaintenanceBatch_error {candidate : Tree × Blobs × Bool} {error : Error}
    (h : publishMaintenanceBatch parts db candidate publication = (.error error, after)) :
    ∃ durable, after = { db.install candidate with durable := durable } ∧
      (durable.1 = db.durable.1 ∨ durable.1 = (candidate.1, candidate.2.1)) := by
  exact publish_error (keepPosition_error h)

theorem fence_preflight {result : Except Error Unit × DB Tree Blobs}
    (h : fenceUnlessPreflight result = (.error .capacityPreflight, after)) :
    result = (.error .capacityPreflight, after) := by
  obtain ⟨answer, db⟩ := result
  cases answer with
  | ok => cases h
  | error error =>
    cases error <;> cases h
    rfl

theorem fence_ok {result : Except Error Unit × DB Tree Blobs} (h : fenceUnlessPreflight result = (.ok (), after)) :
    result = (.ok (), after) := by
  obtain ⟨answer, db⟩ := result
  cases answer with
  | ok => exact h
  | error error => cases error <;> cases h

/-- The flush publishes a frame, and so asks for space. -/
def DB.publishesFirst (db : DB Tree Blobs) (publication : Publication) : Bool :=
  if db.envelopes then !db.walFirst || publication.consolidates || (!publication.walFails && publication.bound)
  else decide (db.pendingMutations ≠ 0) || db.unframed.isSome

/-- The flush acknowledges a group and leaves its commit without a frame. -/
def DB.staysUnframed (db : DB Tree Blobs) (publication : Publication) : Bool :=
  db.envelopes && db.walFirst && !publication.consolidates && !publication.bound

/-- What a flush leaves that succeeds or is refused for space. -/
structure Flushed (parts : Parts Tree Blobs) (db after : DB Tree Blobs) (result : Except Error Unit)
    (publishes unframed : Bool) (publication : Publication) : Prop where
  kept : Kept db after
  sound : Sound parts after
  refused : result = .error .capacityPreflight ↔ publishes = true ∧ publication.answer = .error .capacityPreflight
  clean : result = .ok () → after.pendingMutations = 0 ∧ after.unframed.isSome = unframed

theorem flushed_publish (hsound : Sound parts db) (hresult : result = .ok () ∨ result = .error .capacityPreflight)
    (h : fenceUnlessPreflight (publish parts db identity publication) = (result, after)) :
    Flushed parts db after result true false publication := by
  have hpublish : publish parts db identity publication = (result, after) := by
    rcases hresult with rfl | rfl
    · exact fence_ok h
    · exact fence_preflight h
  obtain ⟨hanswer, hfinish⟩ := publish_result hpublish
  obtain ⟨hkept, hafter⟩ := publish_kept hpublish
  refine ⟨hkept, hafter hsound, by simp [hanswer], fun hok => ?_⟩
  rw [hfinish hok]
  exact ⟨rfl, rfl⟩

theorem flush_spec (h : flush parts db publication = (result, after))
    (hresult : result = .ok () ∨ result = .error .capacityPreflight) :
    Sound parts db ∧
      Flushed parts db after result (db.publishesFirst publication) (db.staysUnframed publication) publication := by
  rw [flush] at h
  cases hchecks : checkWritable parts db >>= fun _ => checkMaintenanceIdle db with
  | error error =>
    rw [hchecks] at h
    cases h
    have hne : error ≠ .capacityPreflight := by
      rintro rfl
      revert hchecks
      simp only [checkWritable, checkOpen, checkMaintenanceIdle, bind, Except.bind]
      split_ifs <;> simp
    rcases hresult with hresult | hresult
    · cases hresult
    · exact absurd (Except.error.inj hresult) hne
  | ok =>
    rw [hchecks] at h
    dsimp only at h
    obtain ⟨_, hwritable, -⟩ := bind_eq_ok.mp hchecks
    have hsound := sound_of_writable hwritable
    refine ⟨hsound, ?_⟩
    rw [DB.publishesFirst, DB.staysUnframed]
    cases henvelopes : db.envelopes with
    | false =>
      rw [henvelopes] at h
      simp only [Bool.false_eq_true, if_false, Bool.false_and] at h ⊢
      by_cases hclean : db.pendingMutations = 0
      · rw [if_pos hclean, materializeUnframedCommit] at h
        cases hunframed : db.unframed with
        | none =>
          rw [hunframed] at h
          cases h
          exact ⟨.refl _, hsound, by simp [hclean], fun _ => ⟨hclean, by rw [hunframed]; rfl⟩⟩
        | some identity =>
          rw [hunframed] at h
          simpa [hclean] using flushed_publish hsound hresult h
      · rw [if_neg hclean] at h
        simpa [hclean] using flushed_publish hsound hresult h
    | true =>
      rw [henvelopes] at h
      simp only [if_true, publicationBarrier, Bool.true_and] at h ⊢
      cases hfirst : db.walFirst && !publication.consolidates with
      | false =>
        rw [hfirst, if_neg Bool.false_ne_true] at h
        have hfull : (!db.walFirst || publication.consolidates) = true := by
          revert hfirst
          cases db.walFirst <;> cases publication.consolidates <;> simp
        simpa [hfirst, hfull] using flushed_publish hsound hresult h
      | true =>
        rw [hfirst] at h
        have hnot : (!db.walFirst || publication.consolidates) = false := by
          revert hfirst
          cases db.walFirst <;> cases publication.consolidates <;> simp
        simp only [if_true] at h
        cases hfails : publication.walFails with
        | true =>
          rw [hfails] at h
          cases h
          rcases hresult with hresult | hresult <;> cases hresult
        | false =>
          simp only [hfails, Bool.false_eq_true, if_false] at h
          cases hbound : publication.bound with
          | false =>
            rw [hbound] at h
            cases h
            exact ⟨⟨rfl, rfl, .inr rfl⟩, hsound.acknowledge _, by simp [hnot], fun _ => ⟨rfl, rfl⟩⟩
          | true =>
            simp only [hbound, if_true, materializeUnframedCommit, DB.acknowledge] at h
            have hflushed := flushed_publish (hsound.acknowledge publication.lsn) hresult h
            refine ⟨⟨hflushed.kept.tree, hflushed.kept.blobs, .inr ?_⟩, hflushed.sound, ?_, ?_⟩
            · exact hflushed.kept.durable.elim id id
            · simpa using hflushed.refused
            · simpa using hflushed.clean

theorem unchanged_iff (hbefore : Sound parts before) (hwritable : after.readOnly = false)
    (hdurable : after.durable.1 = before.durable.1 ∨ after.durable.1 = (before.tree, before.blobs) ∨
      after.durable.1 = (after.tree, after.blobs)) :
    Unchanged parts before after ↔ checkReadable parts after = .ok () ∧
      contents parts after.tree after.blobs = contents parts before.tree before.blobs := by
  have hread := get_of_readable hbefore.readable
  constructor
  · intro h
    rw [← get_of_readable h.readable, h.reads, hread]
    exact ⟨h.readable, rfl⟩
  · rintro ⟨hreadable, hcontents⟩
    obtain ⟨hopen, hvalid, hfence⟩ := checkReadable_ok_iff.mp hreadable
    refine ⟨hreadable, by rw [get_of_readable hreadable, hcontents, hread], ?_, fun hsettled => ?_⟩
    · intro identity publication db hpublish
      have hsound := (publish_kept hpublish).2 ⟨hopen, hwritable, hfence, hvalid⟩
      rw [get_of_readable hsound.readable, get_of_readable (reopen_sound db).readable, hread, ← hcontents,
        (publish_result hpublish).2 rfl]
      exact ⟨rfl, rfl⟩
    · rw [get_of_readable (reopen_sound after).readable, hread]
      change contents parts after.durable.1.1 after.durable.1.2 = _
      rcases hdurable with hdurable | hdurable | hdurable
      · rw [hdurable, hsettled.durable]
      · rw [hdurable]
      · rw [hdurable, hcontents]

/-- The space ran out before the candidate was installed. -/
def RefusedInTime (db : DB Tree Blobs) (met : Circumstances) : Prop :=
  db.publishesFirst met.settle = true ∧ met.settle.answer = .error .capacityPreflight ∨
    met.preparation.answer = .error .capacityPreflight

/-- The batch changes no lookup and no blob, and does not move the root, unless an unframed commit keeps the
root from being compared. -/
def NoEffect (parts : Parts Tree Blobs) (db : DB Tree Blobs) (mutations : List BatchMutation)
    (unframed : Bool) : Prop :=
  ∀ tree blobs changed, applyAll parts mutations db.tree db.blobs false = .ok (tree, blobs, changed) →
    contents parts tree blobs = contents parts db.tree db.blobs ∧ changed = false ∧
      (unframed = true ∨ parts.rootId tree = parts.rootId db.tree)

end Store

/-- Entries in one page of identity 0. -/
def listParts : Parts (List (Bytes × Bytes)) Unit where
  rootId _ := 0
  lookup tree key := .ok ((tree.lookup key).elim .notFound .found)
  upsert tree key value := .ok ((key, value) :: tree)
  upsertBlob tree _ _ := .ok tree
  delete tree key := .ok ((tree.lookup key).isSome, tree.filter fun entry => decide (entry.1 ≠ key))
  shouldSeparate _ _ := false
  append _ _ _ := .error .io
  markDeleted blobs _ := (true, blobs)
  read _ _ := none

/-- A writable handle without pending work. -/
def emptyDb : DB (List (Bytes × Bytes)) Unit where
  isOpen := true
  readOnly := false
  checkOnly := false
  locked := true
  writeFenced := false
  vacuum := false
  walFirst := false
  tree := []
  blobs := ()
  durable := (([], ()), ⟨0, 0, 0, 0⟩)
  manifest := ⟨⟨0, 0, 0, 0⟩, 0⟩
  current := ⟨0, 0, 0, 0⟩
  nextGenerationId := 1
  nextCommitId := 1
  nextCommitSeq := 1
  envelopes := false
  pendingMutations := 0
  pendingWalBytes := 0
  pendingDigest := 0
  walReservedExtent := 0
  maxWalBytes := 1000
  pendingBlobs := false
  unframed := none

def withSpace (available : ℕ) : Publication :=
  ⟨0, ⟨1, 0, 0, 0, 0, true, 0, 0⟩, available, none, false, false, false, false⟩

/-- There is space for the candidate, and this much when it is published. -/
def spaceLeft (available : ℕ) : Circumstances := ⟨withSpace 0, ⟨1, 0, 0, 0, 100000, none⟩, withSpace available⟩

def installedDb : DB (List (Bytes × Bytes)) Unit := { emptyDb with tree := [([1], [2])] }

end OmenDb.Db
