import DemandPaging.Layout
import DemandPaging.Word
import DemandPaging.Text.Hex

/-!
# Addresses, virtual pages and frames

A user address lies in exactly one virtual page; a resident virtual page occupies exactly one frame
of physical memory. Virtual pages are ordered by number and serve as keys of page tables.
-/

namespace DemandPaging

/-- The number of a physical page, which is its index in the frame pool. -/
abbrev Frame := Nat

/-- Text that names a frame. -/
def Frame.render (frame : Frame) : String :=
  s!"PhysPageNum({frame})"

/-- A virtual address. -/
structure VirtAddr where
  val : Nat
deriving DecidableEq, Inhabited

/-- The number of a virtual page. -/
structure VirtPage where
  number : Nat
deriving DecidableEq, Inhabited

namespace VirtPage

instance : Ord VirtPage :=
  ⟨fun a b => compare a.number b.number⟩

instance : Std.OrientedOrd VirtPage where
  eq_swap := Std.OrientedOrd.eq_swap (α := Nat)

instance : Std.TransOrd VirtPage where
  isLE_trans := Std.TransOrd.isLE_trans (α := Nat)

instance : Std.LawfulEqOrd VirtPage where
  eq_of_compare {a b} h := by
    cases a
    cases b
    exact congrArg mk (Std.LawfulEqOrd.eq_of_compare (α := Nat) h)

/-- The first address of a page. Page numbers that no address reaches wrap around. -/
def start (page : VirtPage) : VirtAddr :=
  ⟨page.number <<< pageBits % Word.bound⟩

/-- The page `count` pages further on, if its number is a word. -/
def add? (page : VirtPage) (count : Nat) : Option VirtPage :=
  (Word.add? page.number count).map mk

/-- Text that names a virtual page. -/
def render (page : VirtPage) : String :=
  s!"VirtPageNum({Text.hex page.number})"

end VirtPage

namespace VirtAddr

/-- The position of the address inside its page. -/
def offset (va : VirtAddr) : Nat :=
  va.val % pageSize

/-- Whether the address is the first one of its page. -/
def isAligned (va : VirtAddr) : Bool :=
  va.offset = 0

/-- The page that contains the address. -/
def page (va : VirtAddr) : VirtPage :=
  ⟨va.val >>> pageBits⟩

/-- Whether the address belongs to user space. -/
def isUser (va : VirtAddr) : Bool :=
  va.val < userEnd

/-- The address `count` bytes further on, if it is a word. -/
def add? (va : VirtAddr) (count : Nat) : Option VirtAddr :=
  (Word.add? va.val count).map mk

/-- Text that names a virtual address. -/
def render (va : VirtAddr) : String :=
  s!"VirtAddr({Text.hex va.val})"

theorem page_number (va : VirtAddr) : va.page.number = va.val / pageSize :=
  Nat.shiftRight_eq_div_pow va.val pageBits

theorem page_mul_add_offset (va : VirtAddr) : va.page.number * pageSize + va.offset = va.val := by
  rw [page_number]
  exact Nat.div_add_mod' va.val pageSize

end VirtAddr

theorem VirtPage.start_val {page : VirtPage} (h : page.number * pageSize < Word.bound) :
    page.start.val = page.number * pageSize := by
  have : page.number <<< pageBits = page.number * pageSize := Nat.shiftLeft_eq _ _
  rw [VirtPage.start, this]
  exact Nat.mod_eq_of_lt h

theorem VirtPage.page_start {page : VirtPage} (h : page.number * pageSize < Word.bound) :
    page.start.page = page := by
  cases page
  rw [VirtPage.mk.injEq, VirtAddr.page_number, VirtPage.start_val h]
  exact Nat.mul_div_cancel _ (by decide)

end DemandPaging
