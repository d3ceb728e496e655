import Zit.Lib.FileSystem
import Zit.Lib.IStream
import Zit.Bencode

/-!
# Hashes of data and of files

`sha1.cpp`: `calculateData` hands all of the data to OpenSSL at once, `calculateFile` a file buffer
by buffer. OpenSSL is given by its calls.
-/

set_option autoImplicit false

open Lib Lib.Path

namespace Zit

/-- The calls of OpenSSL, `none` where one fails. A `Ctx` is what an `EVP_MD_CTX` holds. -/
structure OpenSsl where
  Md : Type
  Ctx : Type
  /-- `EVP_get_digestbyname` -/
  getDigestByName : String → Option Md
  /-- `EVP_DigestInit_ex` on a new context. -/
  digestInit : Md → Option Ctx
  /-- `EVP_DigestUpdate` -/
  digestUpdate : Ctx → Bytes → Option Ctx
  /-- `EVP_DigestFinal_ex` -/
  digestFinal : Ctx → Option Sha1
  /-- `SHA1` -/
  sha1 : Bytes → Option Sha1

namespace Sha1

/-- A call that fails is an exception. -/
def check {α : Type} (what : String) : Option α → Except Exn α
  | some a => .ok a
  | none => .error (.runtimeError what)

variable (ssl : OpenSsl)

def calculate (src : Bytes) : Except Exn Sha1 := check "SHA1 calculation failed" (ssl.sha1 src)

def calculateData (data : Bytes) : Except Exn Sha1 := calculate ssl data

/-- `BUFFER_SIZE` -/
def bufferSize : Nat := 1024

/-- `file_stream.read(buffer.data(), BUFFER_SIZE)`: the buffer, which keeps its old bytes behind
those read, `gcount()` and the stream. -/
def readBuffer (fileStream : IStream) (buffer : Bytes) : Bytes × Nat × IStream :=
  let (data, fileStream) := fileStream.read bufferSize
  (data ++ buffer.drop data.length, data.length, fileStream)

/-- Hashes the first `count` bytes of the buffer. -/
def update (what : String) (ctx : ssl.Ctx) (buffer : Bytes) (count : Nat) :
    Except Exn ssl.Ctx :=
  if count ≤ buffer.length then check what (ssl.digestUpdate ctx (buffer.take count))
  else .error (.undefined "buffer range")

/-- The loop over the full buffers: what it leaves, with `gcount()` of the read that ended it. -/
def updateFull : Nat → ssl.Ctx → Bytes → IStream → Except Exn (ssl.Ctx × Bytes × Nat)
  | 0, _, _, _ => .error .diverged
  | turns + 1, ctx, buffer, fileStream =>
    let (buffer, gcount, fileStream) := readBuffer fileStream buffer
    if fileStream.fail then .ok (ctx, buffer, gcount)
    else do
      let ctx ← update ssl "EVP_DigestUpdate failed (1)" ctx buffer bufferSize
      updateFull turns ctx buffer fileStream

/-- A directory can be opened but not read. -/
def calculateFile (fs : FileSystem) (cwd : Loc) (file : Path) : Except Exn Sha1 :=
  match (fs.resolve cwd file).bind fs.node with
  | none => .error (.invalidArgument s!"No such file: {Bencode.rawText file}")
  | some node => do
    let md ← check "No such digest: SHA1" (ssl.getDigestByName "SHA1")
    let ctx ← check "EVP_DigestInit failed" (ssl.digestInit md)
    match node with
    | .dir => .error (.fileSystem "error reading the file: Is a directory")
    | .file content =>
      let (ctx, buffer, gcount) ← updateFull ssl (content.length / bufferSize + 1) ctx
        (List.replicate bufferSize 0) (IStream.ofStr content)
      -- Remainder
      let size ← castU64 gcount
      let ctx ← update ssl "EVP_DigestUpdate failed (2)" ctx buffer size
      check "EVP_DigestFinal failed" (ssl.digestFinal ctx)

end Sha1

end Zit
