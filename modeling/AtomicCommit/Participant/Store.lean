import AtomicCommit.Disk

/-! The resources that a participant has to give. -/

namespace AtomicCommit

class ResourceStore (σ : Type) where
  holds : String → σ → Bool
  /-- A resource that is not there counts as deleted. It may be gone also after an error. -/
  delete : String → σ → Except FileError Unit × σ

structure DirectoryStore where
  root : Path
  disk : Disk
  deriving DecidableEq, Repr

namespace DirectoryStore

def holds (name : String) (store : DirectoryStore) : Bool :=
  isPlainName name && store.disk.isFile (store.root ++ [name])

def delete (name : String) (store : DirectoryStore) : Except FileError Unit × DirectoryStore :=
  if isPlainName name then
    match store.disk.remove (store.root ++ [name]) with
    | .ok disk => (disk.sync store.root, { store with disk := disk })
    | .error .notFound => (.ok (), store)
    | .error e => (.error e, store)
  else (.error (.invalidName "resource" name), store)

instance : ResourceStore DirectoryStore := ⟨holds, delete⟩

end DirectoryStore

end AtomicCommit
