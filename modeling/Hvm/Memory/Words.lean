import Hvm.Term

/-! The 64 bits of a heap word: a term's four fields (`term/new.c`), and the packed pair of an
ALO (`term/new/alo.c`). -/

namespace Hvm.Memory

abbrev Word := BitVec 64

def extBits : BitVec 32 := 0x3FFFF
def valMask : Word := 0x3FFFFFFFFF
def aloTmMask : Word := 0xFFFFFF
def aloLsMask : Word := 0x3FFFFFFFFF

/-- `term_new`. -/
def wordNew (sub tag : BitVec 8) (ext : BitVec 32) (val : Word) : Word :=
  sub.setWidth 64 <<< 63 ||| (tag &&& 0x7F).setWidth 64 <<< 56 |||
    (ext &&& extBits).setWidth 64 <<< 38 ||| (val &&& valMask)

/-- The word that `term_new_alo` and `term_new_alo_at` store. -/
def aloPair (ls tm : Word) : Word := (ls &&& aloLsMask) <<< 24 ||| (tm &&& aloTmMask)

/-- The C tag `ALO`. -/
def tagAlo : BitVec 8 := 7

/-- `term_new_alo_at` on a heap: the word it stores at `aloLoc`, if any, and the term. -/
def termNewAloAt (heap : Word → Word) (aloLoc ls : Word) (len : BitVec 32) (tm : Word) :
    (Word → Word) × Word :=
  if len = 0 then (heap, wordNew 0 tagAlo 0 tm)
  else (Function.update heap aloLoc (aloPair ls tm), wordNew 0 tagAlo len aloLoc)

variable {val ls tm : Word}

end Hvm.Memory
