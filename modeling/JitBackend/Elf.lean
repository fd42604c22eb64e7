import JitBackend.Buffer

/-!
# Relocatable object files

A little-endian 64-bit ELF file with one section of code and one global function symbol at its start.
-/

namespace JitBackend.Elf

def half (n : Nat) : List Byte := littleEndian 2 (.ofNat 64 n)
def word (n : Nat) : List Byte := littleEndian 4 (.ofNat 64 n)
def xword (n : Nat) : List Byte := littleEndian 8 (.ofNat 64 n)

/-- Zeros up to the next multiple of eight. -/
def pad8 (bytes : List Byte) : List Byte := bytes ++ List.replicate ((8 - bytes.length % 8) % 8) 0

def utf8 (s : String) : List Byte := s.toUTF8.toList.map fun b => .ofNat 8 b.toNat

structure Section where
  name : Nat := 0
  type : Nat := 0
  flags : Nat := 0
  offset : Nat := 0
  size : Nat := 0
  link : Nat := 0
  info : Nat := 0
  align : Nat := 0
  entrySize : Nat := 0

def Section.bytes (s : Section) : List Byte :=
  word s.name ++ word s.type ++ xword s.flags ++ xword 0 ++ xword s.offset ++ xword s.size ++ word s.link ++
    word s.info ++ xword s.align ++ xword s.entrySize

/-- The file header of an object with five sections, their headers at `sections`. -/
def header (machine sections : Nat) : List Byte :=
  [0x7f, 0x45, 0x4c, 0x46, 2, 1, 1] ++ List.replicate 9 0 ++ half 1 ++ half machine ++ word 1 ++ xword 0 ++ xword 0 ++
    xword sections ++ word 0 ++ half 64 ++ half 0 ++ half 0 ++ half 64 ++ half 5 ++ half 4

/-- The symbol of the code, a global function of hidden visibility in section 1. -/
def symbolEntry (name size : Nat) : List Byte := word name ++ [0x12, 2] ++ half 1 ++ xword 0 ++ xword size

/-- The names of the sections. -/
def sectionNames : List Byte := utf8 "\x00.text\x00.shstrtab\x00.strtab\x00.symtab\x00"

/-- The object file of some code under a symbol. -/
def object (machine : Nat) (symbol : String) (code : List Byte) : List Byte :=
  let start := header machine 0 ++ code
  let symtab := (pad8 start).length
  let named := !symbol.isEmpty
  let strings : List Byte := 0 :: if named then utf8 symbol ++ [0] else []
  let strtab := symtab + 48
  let shstrtab := strtab + strings.length
  let tail := List.replicate 24 0 ++ symbolEntry (if named then 1 else 0) code.length ++ strings ++ sectionNames
  let sections : List Section :=
    [{}, { name := 1, type := 1, flags := 6, offset := 64, size := code.length, align := 16 },
      { name := 0x19, type := 2, offset := symtab, size := 48, link := 3, info := 1, align := 8, entrySize := 24 },
      { name := 0x11, type := 3, offset := strtab, size := strings.length, align := 1 },
      { name := 7, type := 3, offset := shstrtab, size := sectionNames.length, align := 1 }]
  let body := pad8 (pad8 start ++ tail)
  header machine body.length ++ body.drop 64 ++ sections.flatMap Section.bytes

end JitBackend.Elf
