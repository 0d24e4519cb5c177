/-!
# Memory layout

Sizes and limits of the machine: pages, disk sectors, the user half of the address space and the
region reserved for the user stack.
-/

namespace DemandPaging

/-- The number of address bits that select a byte inside a page. -/
abbrev pageBits : Nat := 12

/-- The number of bytes in a page. -/
abbrev pageSize : Nat := 4096

theorem pageSize_eq_shiftLeft : pageSize = 1 <<< pageBits := rfl

/-- The number of bytes in a disk sector. -/
abbrev sectorSize : Nat := 512

/-- The number of sectors that hold one page. -/
abbrev sectorsPerPage : Nat := 8

theorem sectorsPerPage_mul_sectorSize : sectorsPerPage * sectorSize = pageSize := rfl

/-- The first address above the user stack, which grows towards lower addresses. -/
abbrev userStackTop : Nat := 0x47480000

/-- The number of bytes the user stack may grow to. -/
abbrev stackLimit : Nat := 0x100000

/-- How far below the stack pointer an access still counts as a stack access. It leaves room for
an instruction that stores first and moves the stack pointer afterwards. -/
abbrev stackSlack : Nat := pageSize

/-- The first address that does not belong to user space. -/
abbrev userEnd : Nat := 0x8004000000

/-- The descriptors of the console, which cannot be mapped. -/
def consoleDescriptors : List Nat := [0, 1]

end DemandPaging
