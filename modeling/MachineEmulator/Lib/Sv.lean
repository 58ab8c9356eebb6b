import Mathlib.Data.Nat.Bitwise

/-!
# Address translation of the RISC-V privileged architecture

The translation process of the Sv39, Sv48 and Sv57 modes, in numbers and fields. Memory is what implicit
accesses read: the words at some physical addresses. The accessed and dirty bits are left out, and so are the
bits of pointers to other tables that have no meaning.

* `Sv.Entry` : a page-table entry by its fields;
* `Sv.walk` : the steps of the process, from a table of some level on;
* `Sv.translate` : the physical address of a virtual one, or a fault, from the registers.
-/

namespace Sv

/-- The access an address is translated for. -/
inductive Access where
  | load
  | store
  | fetch
  deriving DecidableEq, Repr

structure Entry where
  v : Bool
  r : Bool
  w : Bool
  x : Bool
  u : Bool
  ppn : Nat
  /-- The bits 63 to 54, all of them reserved. -/
  reserved : Nat
  deriving DecidableEq, Repr

def Entry.decode (pte : BitVec 64) : Entry where
  v := pte.getLsbD 0
  r := pte.getLsbD 1
  w := pte.getLsbD 2
  x := pte.getLsbD 3
  u := pte.getLsbD 4
  ppn := pte.toNat / 2 ^ 10 % 2 ^ 44
  reserved := pte.toNat / 2 ^ 54

def Entry.valid (e : Entry) : Bool := e.v && !(!e.r && e.w) && e.reserved == 0

/-- The entry is a leaf, not a pointer to another table. -/
def Entry.leaf (e : Entry) : Bool := e.r || e.x

/-- What the permission to access a page depends on. -/
structure Context where
  /-- The effective privilege mode is supervisor mode, not user mode. -/
  supervisor : Bool
  sum : Bool
  mxr : Bool

/-- The mode may access the page: user mode the pages of user mode, supervisor mode the others, and with `SUM`
those of user mode for loads and stores. -/
def Entry.forMode (e : Entry) (c : Context) (acc : Access) : Bool :=
  if c.supervisor then !e.u || (c.sum && acc != .fetch) else e.u

/-- The page may be accessed that way. With `MXR`, executable pages can be read. -/
def Entry.forAccess (e : Entry) (c : Context) : Access → Bool
  | .load => e.r || (c.mxr && e.x)
  | .store => e.w
  | .fetch => e.x

/-- The virtual page number of a level. -/
def vpn (va i : Nat) : Nat := va / 2 ^ (12 + 9 * i) % 2 ^ 9

/-- The physical address from a leaf of level `i`: the upper page numbers are those of the leaf, the rest is
from the virtual address. -/
def Entry.address (e : Entry) (va i : Nat) : Nat :=
  e.ppn / 2 ^ (9 * i) * 2 ^ (12 + 9 * i) + va % 2 ^ (12 + 9 * i)

/-- The process from the table at `a` on, which is of level `i` if `i + 1` levels are left. -/
def walk (mem : Nat → Option (BitVec 64)) (c : Context) (acc : Access) (va : Nat) : Nat → Nat → Option Nat
  | 0, _ => none
  | i + 1, a =>
    match mem (a + vpn va i * 8) with
    | none => none
    | some pte =>
      let e := Entry.decode pte
      if !e.valid then none
      else if e.leaf then
        if e.forMode c acc && e.forAccess c acc && e.ppn % 2 ^ (9 * i) == 0 then some (e.address va i)
        else none
      else walk mem c acc va i (e.ppn * 2 ^ 12)

def levels : Nat → Option Nat
  | 8 => some 3
  | 9 => some 4
  | 10 => some 5
  | _ => none

/-- The bits above the virtual page numbers are copies of the highest of these. -/
def Canonical (n : Nat) (va : BitVec 64) : Prop :=
  ∀ k < 64, 12 + 9 * n ≤ k → va.getLsbD k = va.getLsbD (11 + 9 * n)

instance (n : Nat) (va : BitVec 64) : Decidable (Canonical n va) :=
  inferInstanceAs (Decidable (∀ k < 64, _ → _))

/-- The privilege mode an access is made with: for loads and stores with `MPRV`, that of `MPP`. -/
def effectivePrv (prv : Nat) (mstatus : BitVec 64) (acc : Access) : Nat :=
  if acc ≠ .fetch ∧ mstatus.getLsbD 17 then mstatus.toNat / 2 ^ 11 % 4 else prv

def satpMode (satp : BitVec 64) : Nat := satp.toNat / 2 ^ 60

def satpPpn (satp : BitVec 64) : Nat := satp.toNat % 2 ^ 44

/-- Addresses are translated for accesses that supervisor or user mode makes, unless the mode is bare. -/
def Active (prv : Nat) (mstatus satp : BitVec 64) (acc : Access) : Prop :=
  effectivePrv prv mstatus acc ≤ 1 ∧ satpMode satp ≠ 0

instance (prv : Nat) (mstatus satp : BitVec 64) (acc : Access) : Decidable (Active prv mstatus satp acc) :=
  inferInstanceAs (Decidable (_ ∧ _))

/-- The physical address of a virtual one; `none` is a fault. -/
def translate (mem : Nat → Option (BitVec 64)) (prv : Nat) (mstatus satp : BitVec 64) (acc : Access)
    (va : BitVec 64) : Option Nat :=
  if Active prv mstatus satp acc then
    match levels (satpMode satp) with
    | none => none
    | some n =>
      if Canonical n va then
        walk mem ⟨effectivePrv prv mstatus acc == 1, mstatus.getLsbD 18, mstatus.getLsbD 19⟩ acc va.toNat n
          (satpPpn satp * 2 ^ 12)
      else none
  else some va.toNat

end Sv
