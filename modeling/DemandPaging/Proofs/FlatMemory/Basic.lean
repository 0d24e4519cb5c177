import DemandPaging.Machine.Operation
import Mathlib

/-! # Flat memory

What a process may expect of its anonymous memory, without frames and slots: a byte for every
address. A page that is registered to start as zeros is zero, a write changes the bytes that were
written in the one address space, and a child starts with the bytes of its parent. Where a page
takes its bytes from a file, or no page is registered, nothing is said.
-/

namespace DemandPaging

/-- The bytes of all address spaces, as far as they are known. -/
abbrev Flat := SpaceId → ℕ → Option UInt8

def pageOf (addr : ℕ) : VirtPage :=
  VirtAddr.page ⟨addr⟩

theorem pageOf_number (addr : ℕ) : (pageOf addr).number = addr / pageSize :=
  VirtAddr.page_number ⟨addr⟩

theorem pageOf_number_mul_add (vpn : VirtPage) {i : ℕ} (hi : i < pageSize) :
    pageOf (vpn.number * pageSize + i) = vpn := by
  have hnumber : (pageOf (vpn.number * pageSize + i)).number = vpn.number := by
    rw [pageOf_number, Nat.mul_comm, Nat.mul_add_div (by decide), Nat.div_eq_of_lt hi, Nat.add_zero]
  cases vpn
  exact congrArg VirtPage.mk hnumber

namespace MachineM

/-- The parts of the data that a write stores: all of them, unless one cannot be accessed. -/
def completed (s : SpaceId) (data : Bytes) : List Chunk → Machine → List Chunk
  | [], _ => []
  | chunk :: chunks, m =>
    match writeChunk s data chunk m with
    | .ok _ m' => chunk :: completed s data chunks m'
    | .error _ _ => []

/-- The pages that a write stores to. -/
def writtenPages (s : SpaceId) (va : VirtAddr) (data : Bytes) (m : Machine) : List VirtPage :=
  if isUserRange va data.size then
    (completed s data (Chunk.split va data.size) m).map Chunk.page
  else []

end MachineM

namespace Op

/-- The byte that a request writes to an address. -/
def stored? (op : Op) (m : Machine) (s : SpaceId) (addr : ℕ) : Option UInt8 :=
  match op with
  | write t va data =>
    if t = s ∧ va.val ≤ addr ∧ pageOf addr ∈ MachineM.writtenPages t va data m then
      data[addr - va.val]?
    else none
  | _ => none

/-- The address space whose pages a request copies to another. -/
def source? (op : Op) (m : Machine) (s : SpaceId) : Option SpaceId :=
  match op with
  | fork src => if s = m.nextSpace then some src else none
  | copy dst src => if s = dst then some src else none
  | _ => none

/-- Whether a request may remove a page. -/
def Removes (op : Op) (s : SpaceId) (vpn : VirtPage) : Prop :=
  match op with
  | drop t | recycle t | unmap t _ | unmapCall t _ => t = s
  | remove t va => t = s ∧ va.page = vpn
  | _ => False

end Op

/-- The first byte of an address whose page a request registers. -/
def Flat.first (memory : Flat) (op : Op) (m : Machine) (s : SpaceId) (addr : ℕ) (page : Page) :
    Option UInt8 :=
  match op.source? m s with
  | some src => memory src addr
  | none => if page.segment? = none then some 0 else none

/-- Flat memory after a request that leads from one machine to another. -/
def Flat.after (memory : Flat) (op : Op) (m m' : Machine) : Flat := fun s addr =>
  match m'.page? s (pageOf addr) with
  | none => none
  | some page =>
    let before := if (m.page? s (pageOf addr)).isSome then memory s addr
      else memory.first op m s addr page
    before.map fun byte => (op.stored? m s addr).getD byte

/-- Flat memory after a sequence of requests. -/
def Machine.flatAfter (m : Machine) (memory : Flat) : List (Visit × Op) → Flat
  | [] => memory
  | (visit, op) :: requests =>
    match m.step? visit op with
    | none => memory
    | some m' => m'.flatAfter (memory.after op m m') requests

/-- Flat memory when a machine that was booted has served some requests. -/
def Machine.flat (m : Machine) (requests : List (Visit × Op)) : Flat :=
  m.flatAfter (fun _ _ => none) requests

end DemandPaging
