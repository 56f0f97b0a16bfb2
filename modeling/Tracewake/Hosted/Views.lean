import Tracewake.Hosted.Schema

/-!
# Reads

The queries through which tenants and the object cleanup see artifacts.
-/

namespace Tracewake.Hosted

/-- `PublicArtifact`. -/
structure PublicArtifact where
  id : Uuid
  kind : ArtifactKind
  digest : String
  size : ℤ
  mediaType : String
  schemaName : Option String
  schemaVersion : Option ℤ
  retentionExpires : Timestamp

/-- `ArtifactView`. -/
structure ArtifactView where
  id : Uuid
  kind : ArtifactKind
  key : String
  version : String
  digest : String
  mediaType : String
  size : ℤ

/-- `artifacts.Identity`. -/
structure ObjectIdentity where
  key : String
  version : String
  deriving DecidableEq

/-- `AND authoritative AND retention_expires_at>transaction_timestamp()`. -/
def ArtifactRow.retained (row : ArtifactRow) (now : Timestamp) : Bool :=
  row.authoritative && now < row.retentionExpiresAt

/-- The artifacts that `GetJob` lists. -/
def jobArtifacts (now : Timestamp) (workspace job : Uuid) (store : Store) : List PublicArtifact :=
  store.artifacts.filterMap fun (owner, kind) =>
    ((store.artifact owner kind).filter fun row =>
      owner = job && row.workspace = workspace && row.retained now).map fun row =>
        { id := row.id
          kind := kind
          digest := row.digest
          size := row.size
          mediaType := row.mediaType
          schemaName := row.schemaName
          schemaVersion := row.schemaVersion
          retentionExpires := row.retentionExpiresAt }

/-- The row that `GetArtifact` reads, with its place in the table. -/
def getArtifact (now : Timestamp) (workspace id : Uuid) (store : Store) :
    Option ((Uuid × ArtifactKind) × ArtifactView) :=
  store.artifacts.findSome? fun (owner, kind) =>
    ((store.artifact owner kind).filter fun row =>
      row.id = id && row.workspace = workspace && row.retained now).map fun row =>
        ((owner, kind),
          { id := row.id
            kind := kind
            key := row.objectKey
            version := row.objectVersion
            digest := row.digest
            mediaType := row.mediaType
            size := row.size })

/-- The bundles that `RetainedObjects` lists. -/
def retainedBundles (now : Timestamp) (store : Store) : List ObjectIdentity :=
  store.runs.filterMap fun id =>
    ((store.run id).filter fun row =>
      row.state ≠ .deleted && now < row.retentionExpiresAt).bind fun row =>
        row.bundleObjectVersion.map fun version => ⟨row.bundleObjectKey, version⟩

/-- The artifacts that `RetainedObjects` lists. -/
def retainedArtifacts (now : Timestamp) (store : Store) : List ObjectIdentity :=
  store.artifacts.filterMap fun (owner, kind) =>
    ((store.artifact owner kind).filter (·.retained now)).map fun row =>
      ⟨row.objectKey, row.objectVersion⟩

/-- `RetainedObjects`. -/
def retainedObjects (now : Timestamp) (store : Store) : List ObjectIdentity :=
  retainedBundles now store ++ retainedArtifacts now store

end Tracewake.Hosted
