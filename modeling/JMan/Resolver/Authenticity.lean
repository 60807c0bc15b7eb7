import JMan.Resolver.Repository

/-!
# JMan — what a fetched file holds

A fetch returns bytes and the path of a file with them. The file has these bytes
unless one of two things happened: the client remembered the file and something
outside has changed it since, or a cache write could not move its temporary file
into place but found another file there (`KeepsOther`), which `write_atomic`
takes for what was to be written.
-/

namespace JMan.Resolver

open Paths (Path)
open FileStore (exec Avoids)

namespace RepositoryClient

/-- The file at a path of the cache has these bytes. -/
def Holds (w : FileStore.World FilePlace ByteArray) (path : Path) (bytes : ByteArray) : Prop :=
  w.files (.cache (Paths.locate path)) = some bytes

/-- The file has the bytes that go with it, and these the checksum. -/
structure Exact (client : RepositoryClient) (cached : CachedFile)
    (w : FileStore.World FilePlace ByteArray) : Prop where
  holds : Holds w cached.path cached.bytes
  checksum : cached.checksum = client.sha256 cached.bytes

/-- No other file could be taken for one with these bytes. -/
def Distinguishes (client : RepositoryClient) (bytes : ByteArray) : Prop :=
  ∀ other, client.digest.hex other = client.digest.hex bytes → other = bytes

variable {client : RepositoryClient} {network : Network} {c : Coordinate}
  {w w' : FileStore.World FilePlace ByteArray} {path temporary : Path} {bytes : ByteArray}

-- Writing

end RepositoryClient

end JMan.Resolver
