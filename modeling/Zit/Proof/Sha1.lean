import Zit.Sha1

/-!
# A file hashes to its content

Every read but the last fills the buffer, and the last one leaves old bytes behind the `gcount()`
bytes it read. `updateFull_ok` is the loop: what was hashed so far, followed by the `gcount()` bytes
in front of the buffer, is the file.
-/

set_option autoImplicit false

open Lib Lib.Path

namespace Zit

/-- What OpenSSL is relied on for: both interfaces work and compute `hash`, and an update with `a`
and then `b` is one with `a ++ b`. -/
structure OpenSsl.Computes (ssl : OpenSsl) (hash : Bytes → Sha1) : Prop where
  sha1 : ∀ data, ssl.sha1 data = some (hash data)
  digest : ∃ md ctx, ssl.getDigestByName "SHA1" = some md ∧ ssl.digestInit md = some ctx ∧
    ∀ data, (ssl.digestUpdate ctx data).bind ssl.digestFinal = some (hash data)
  update_append : ∀ ctx a b,
    (ssl.digestUpdate ctx a).bind (ssl.digestUpdate · b) = ssl.digestUpdate ctx (a ++ b)

/-- OpenSSL with a context that keeps the bytes it was updated with. -/
def OpenSsl.ofHash (hash : Bytes → Sha1) : OpenSsl where
  Md := Unit
  Ctx := Bytes
  getDigestByName name := if name = "SHA1" then some () else none
  digestInit _ := some []
  digestUpdate ctx data := some (ctx ++ data)
  digestFinal ctx := some (hash ctx)
  sha1 data := some (hash data)

theorem OpenSsl.ofHash_computes (hash : Bytes → Sha1) : (ofHash hash).Computes hash where
  sha1 _ := rfl
  digest := ⟨(), [], rfl, rfl, fun _ => rfl⟩
  update_append _ _ _ := congrArg some (List.append_assoc ..)

namespace Sha1

open IStream

/-! ## The buffer -/

section
variable (str : Bytes) {buffer : Bytes}

theorem readBuffer_full {p : Bytes} (hp : p.length = bufferSize)
    (hbuffer : buffer.length = bufferSize) (q : Bytes) :
    readBuffer (goodAt str (p ++ q)) buffer = (p, bufferSize, goodAt str q) := by
  have hread := read_good str p q
  rw [hp] at hread
  have hdrop : buffer.drop bufferSize = [] := List.drop_eq_nil_of_le (by omega)
  simp only [readBuffer, hread, hp, hdrop, List.append_nil]

theorem readBuffer_short {rest : Bytes} (h : rest.length < bufferSize) :
    readBuffer (goodAt str rest) buffer =
      (rest ++ buffer.drop rest.length, rest.length, ⟨str, [], true, true⟩) := by
  simp only [readBuffer, read_short str h]

end

theorem check_some {α : Type} (what : String) {x : Option α} {a : α} (h : x = some a) :
    check what x = .ok a := by
  rw [h]
  rfl

variable {ssl : OpenSsl}

/-- Behind the bytes that are hashed the buffer may hold anything. -/
theorem update_ok (what : String) {ctx ctx' : ssl.Ctx} {data : Bytes} (old : Bytes)
    (h : ssl.digestUpdate ctx data = some ctx') :
    update ssl what ctx (data ++ old) data.length = .ok ctx' := by
  rw [update, if_pos (by rw [List.length_append]; omega), List.take_left]
  exact check_some what h

/-! ## The loop -/

variable {hash : Bytes → Sha1}

/-- The first part of an update that succeeds succeeds, and the rest goes on from there. -/
theorem update_split (hssl : ssl.Computes hash) {ctx ctx' : ssl.Ctx} {a b : Bytes}
    (h : ssl.digestUpdate ctx (a ++ b) = some ctx') :
    ∃ mid, ssl.digestUpdate ctx a = some mid ∧ ssl.digestUpdate mid b = some ctx' := by
  rw [← hssl.update_append] at h
  exact Option.bind_eq_some_iff.1 h

/-- The loop stops with the last bytes in front of the buffer, all others hashed. -/
theorem updateFull_ok (hssl : ssl.Computes hash) (str : Bytes) {turns : Nat}
    {ctx ctx' : ssl.Ctx} {buffer rest : Bytes} (hbuffer : buffer.length = bufferSize)
    (hturns : rest.length / bufferSize < turns)
    (h : ssl.digestUpdate ctx rest = some ctx') :
    ∃ mid last old, updateFull ssl turns ctx buffer (goodAt str rest) =
        .ok (mid, last ++ old, last.length) ∧
      last.length < bufferSize ∧ ssl.digestUpdate mid last = some ctx' := by
  induction turns generalizing ctx buffer rest with
  | zero => exact absurd hturns (Nat.not_lt_zero _)
  | succ turns ih =>
    by_cases hshort : rest.length < bufferSize
    · refine ⟨ctx, rest, buffer.drop rest.length, ?_, hshort, h⟩
      simp only [updateFull, readBuffer_short str hshort, if_true]
    · obtain ⟨p, q, rfl, hp⟩ : ∃ p q, rest = p ++ q ∧ p.length = bufferSize :=
        ⟨rest.take bufferSize, rest.drop bufferSize, (List.take_append_drop ..).symm,
          List.length_take_of_le (Nat.not_lt.1 hshort)⟩
      have hq : q.length / bufferSize < turns := by
        rw [List.length_append, hp, Nat.add_div_left _ (by decide)] at hturns
        omega
      obtain ⟨ctx1, hfirst, hrest⟩ := update_split hssl h
      obtain ⟨mid, last, old, hloop, hlast, hmid⟩ := ih hp hq hrest
      have hupdate := update_ok "EVP_DigestUpdate failed (1)" [] hfirst
      rw [List.append_nil, hp] at hupdate
      refine ⟨mid, last, old, ?_, hlast, hmid⟩
      simp only [updateFull, readBuffer_full str hp hbuffer, Bool.false_eq_true, if_false, hupdate]
      exact hloop

theorem calculateData_ok (hssl : ssl.Computes hash) (data : Bytes) :
    calculateData ssl data = .ok (hash data) :=
  check_some "SHA1 calculation failed" (hssl.sha1 data)

theorem calculateFile_ok (hssl : ssl.Computes hash) {fs : FileSystem} {cwd : Loc} {file : Path}
    {l : Loc} {content : Bytes} (hl : fs.resolve cwd file = some l)
    (hc : fs.node l = some (.file content)) :
    calculateFile ssl fs cwd file = .ok (hash content) := by
  obtain ⟨md, ctx, hmd, hctx, hdigest⟩ := hssl.digest
  obtain ⟨ctx', hupdate, hfinal⟩ := Option.bind_eq_some_iff.1 (hdigest content)
  obtain ⟨mid, last, old, hloop, hlast, hmid⟩ := updateFull_ok hssl content
    (List.length_replicate (a := (0 : UInt8)) (n := bufferSize))
    (Nat.lt_succ_self (content.length / bufferSize)) hupdate
  have hcast : castU64 last.length = .ok last.length := castU64_of (by
    unfold bufferSize at hlast
    omega)
  unfold calculateFile
  rw [hl, Option.bind_some, hc]
  simp only [bind, Except.bind, check_some _ hmd, check_some _ hctx, ofStr]
  rw [hloop]
  simp only [hcast, update_ok _ old hmid, check_some _ hfinal]

/-- Buffer by buffer or at once, the hash is the same. -/
theorem calculateFile_eq_calculateData (hssl : ssl.Computes hash) {fs : FileSystem} {cwd : Loc}
    {file : Path} {l : Loc} {content : Bytes} (hl : fs.resolve cwd file = some l)
    (hc : fs.node l = some (.file content)) :
    ∃ digest, calculateFile ssl fs cwd file = .ok digest ∧
      calculateData ssl content = .ok digest :=
  ⟨hash content, calculateFile_ok hssl hl hc, calculateData_ok hssl content⟩

/-- The SHA-1 of one buffer of zeros. -/
def zerosSha1 (data : Bytes) : Sha1 :=
  if data = List.replicate 1024 0 then
    ⟨[0x60, 0xCA, 0xCB, 0xF3, 0xD7, 0x2E, 0x1E, 0x78, 0x34, 0x20, 0x3D, 0xA6, 0x08, 0x03, 0x7B,
      0x1B, 0xF8, 0x3B, 0x40, 0xE8], rfl⟩
  else .zero

def zerosFile : FileSystem := FileSystem.put ⟨∅⟩ [[110]] (.file (List.replicate 1024 0))

theorem calculateFile_zeros : ∃ digest,
    calculateFile (OpenSsl.ofHash zerosSha1) zerosFile [] [110] = .ok digest ∧
      calculateData (OpenSsl.ofHash zerosSha1) (List.replicate 1024 0) = .ok digest :=
  calculateFile_eq_calculateData (OpenSsl.ofHash_computes zerosSha1) (l := [[110]]) rfl rfl

end Sha1

end Zit
