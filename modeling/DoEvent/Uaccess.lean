import Mathlib.Data.Nat.Notation
import Mathlib.Logic.Function.Basic

/-!
# User memory and the copy routines

User memory is a map from addresses to bytes with read and write permission per page.
`copy_from_user` and `copy_to_user` copy a prefix up to the first inaccessible byte and
return the number of bytes not copied. The output stages of `sys_doeventinfo` and
`sys_doeventstat` run outside the lock and touch only the caller's own memory, so they
are given here as functions of that memory.
-/

namespace DoEvent

structure UserMem where
  byte : ℕ → UInt8
  readable : ℕ → Bool
  writable : ℕ → Bool

def pageSize : ℕ := 4096

def copyFromUser (m : UserMem) : ℕ → ℕ → List UInt8 × ℕ
  | _, 0 => ([], 0)
  | src, n + 1 =>
    if m.readable (src / pageSize) then
      let r := copyFromUser m (src + 1) n
      (m.byte src :: r.1, r.2)
    else ([], n + 1)

def copyToUser : UserMem → ℕ → List UInt8 → UserMem × ℕ
  | m, _, [] => (m, 0)
  | m, dst, b :: bs =>
    if m.writable (dst / pageSize) then
      copyToUser { m with byte := Function.update m.byte dst b } (dst + 1) bs
    else (m, bs.length + 1)

/-- The four bytes of a 32-bit word, little endian. -/
def wordBytes (x : UInt32) : List UInt8 :=
  [x.toUInt8, (x >>> 8).toUInt8, (x >>> 16).toUInt8, (x >>> 24).toUInt8]

def wordOf (bs : List UInt8) : UInt32 :=
  bs.foldr (fun b acc => acc <<< 8 ||| b.toUInt32) 0

/-! ### `sys_doeventinfo` outside the lock -/

/-- `eventIDs != NULL && copy_from_user(&p, eventIDs, sizeof(int))`. -/
def infoProbeFails (m : UserMem) (eventIDs : Option ℕ) : Bool :=
  match eventIDs with
  | none => false
  | some p => (copyFromUser m p 4).2 != 0

/-- `sizeof(eventsarray)`. -/
def sizeofEventsarray (num : Int32) : Int := 4 * num.toInt

/-- A length as `copy_to_user` takes it, an `unsigned` of 32 bits
(`arch/x86/include/asm/uaccess_64.h`). -/
def copyToUserLen (len : Int) : Int := len % 4294967296

def intBytes (xs : List Int32) : List UInt8 := xs.flatMap fun x => wordBytes x.toUInt32

/-- `copy_to_user(eventIDs, eventsarray, sizeof(eventsarray))`. -/
def copyEventsarray (m : UserMem) (num : Int32) (p : ℕ) (eventsarray : List Int32) : UserMem × ℕ :=
  copyToUser m p ((intBytes eventsarray).take (copyToUserLen (sizeofEventsarray num)).toNat)

/-- From the release of the read lock to the return. -/
def infoFinish (m : UserMem) (num : Int32) (eventIDs : Option ℕ) (eventsarray : List Int32)
    (check : Int32) : UserMem × Int :=
  match eventIDs with
  | none => (m, check.toInt)
  | some p =>
    if check ≤ num then
      let r := copyEventsarray m num p eventsarray
      if r.2 ≠ 0 then (r.1, -1) else (r.1, check.toInt)
    else (m, -1)

/-! ### `sys_doeventstat` outside the lock -/

/-- The four output pointers; NULL is `none`. -/
structure StatPtrs where
  uid : Option ℕ
  gid : Option ℕ
  uidFlag : Option ℕ
  gidFlag : Option ℕ
  deriving DecidableEq, Repr

/-- The locals `thisUID`, `thisGID`, `thisUIDFlag` and `thisGIDFlag`. -/
structure StatVals where
  uid : UInt32
  gid : UInt32
  uidFlag : Int32
  gidFlag : Int32
  deriving DecidableEq, Repr

/-- One of the guarded reads `if (P != NULL) not_copied = copy_from_user(&x, P, 4)`. The
local of a NULL pointer stays uninitialised and is never read; it is 0 here. -/
def probeWord (m : UserMem) : Option ℕ → UInt32 × ℕ
  | none => (0, 0)
  | some p =>
    let r := copyFromUser m p 4
    (wordOf r.1, r.2)

/-- One of the guarded writes `if (P != NULL) not_copied = copy_to_user(P, &x, 4)`. -/
def storeWord (m : UserMem) (p : Option ℕ) (x : UInt32) : UserMem × ℕ :=
  match p with
  | none => (m, 0)
  | some p => copyToUser m p (wordBytes x)

/-- The pointer checks; `none` when one of the copies fails. -/
def statProbe (m : UserMem) (p : StatPtrs) : Option StatVals :=
  let u := probeWord m p.uid
  let g := probeWord m p.gid
  let uf := probeWord m p.uidFlag
  let gf := probeWord m p.gidFlag
  if u.2 ≠ 0 ∨ g.2 ≠ 0 ∨ uf.2 ≠ 0 ∨ gf.2 ≠ 0 then none
  else some ⟨u.1, g.1, uf.1.toInt32, gf.1.toInt32⟩

/-- The copies to user space and the return value (`-EFAULT` is -14). -/
def statFinish (m : UserMem) (p : StatPtrs) (v : StatVals) : UserMem × Int :=
  let u := storeWord m p.uid v.uid
  let g := storeWord u.1 p.gid v.gid
  let uf := storeWord g.1 p.uidFlag v.uidFlag.toUInt32
  let gf := storeWord uf.1 p.gidFlag v.gidFlag.toUInt32
  (gf.1, if u.2 ≠ 0 ∨ g.2 ≠ 0 ∨ uf.2 ≠ 0 ∨ gf.2 ≠ 0 then -14 else 0)

end DoEvent
