import DemandPaging.Page
import DemandPaging.PageTable.Basic

/-!
# Address spaces

The user memory of one process: its registered pages, at most one for each page number, the page
table that maps those of them that are resident, and the stack pointer that decides how far the
stack may grow.
-/

namespace DemandPaging

/-- The registered pages of an address space, by page number. -/
abbrev PageMap := Std.TreeMap VirtPage Page

namespace PageMap

/-- Registers a page, unless one is registered in its place. -/
def register (pages : PageMap) (page : Page) : Except Errno PageMap :=
  if pages.contains page.vpn then .error .alreadyExists
  else .ok (pages.insert page.vpn page)

/-- Registers several pages, or none if one of them cannot be registered. -/
def registerAll (pages : PageMap) (run : List Page) : Except Errno PageMap :=
  run.foldlM register pages

/-- Whether one of the `count` pages from `base` on is registered. -/
def occupied (pages : PageMap) (base : VirtPage) (count : Nat) : Bool :=
  pages.keys.any fun vpn => base.number ≤ vpn.number && vpn.number < base.number + count

/-- A page can be registered exactly if its number is not taken. -/
theorem register_eq_ok {pages registered : PageMap} {page : Page} :
    pages.register page = .ok registered ↔
      pages.contains page.vpn = false ∧ pages.insert page.vpn page = registered := by
  by_cases h : pages.contains page.vpn <;> simp [register, h]

end PageMap

/-- The address space of one process. -/
structure Space where
  pages : PageMap
  table : PageTable
  /-- The stack pointer of the process when it last entered the kernel. -/
  userSp : Nat

namespace Space

/-- The address space without pages. -/
def empty : Space :=
  ⟨∅, .empty, userStackTop⟩

/-- The registered page that contains an address. -/
def pageAt? (space : Space) (va : VirtAddr) : Option Page :=
  space.pages[va.page]?

/-- The frame that an address is mapped to. -/
def frameAt? (space : Space) (va : VirtAddr) : Option Frame :=
  space.table.frame? va.page

/-- Whether an address lies in the stack region and not further below the stack pointer than a
stack access reaches. -/
def isStackAccess (space : Space) (va : VirtAddr) : Bool :=
  va.val < userStackTop && userStackTop - stackLimit ≤ va.val && space.userSp ≤ va.val + stackSlack

/-- Whether a pointer of the process may be valid: it leads to a registered page or is a stack
access. -/
def checkAddress (space : Space) (va : VirtAddr) : Bool :=
  va.val != 0 && va.isUser && (space.pages.contains va.page || space.isStackAccess va)

end Space

end DemandPaging
