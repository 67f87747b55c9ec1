import Xv6.Fs.Write
import Xv6.Vm.Procs

/-!
# The headers of a program

`exec` takes where the program headers and the segments are from the file. The fields have 64 bits, but
`readi` gets an offset of 32, so a field that does not fit is cut to one that may be in the file.
-/

namespace Xv6.Vm

/-- A number of `n` bytes, the least significant first. -/
def number (f : List UInt8) (off n : Nat) : Nat := ((f.drop off).take n).foldr (fun b v => b.toNat + 256 * v) 0

/-- How many bytes `readi` reads. -/
def readi (f : List UInt8) (off n : Nat) : Nat :=
  if f.length < off ∨ (off + n) % 2 ^ 32 < off then 0
  else if f.length < (off + n) % 2 ^ 32 then f.length - off
  else n

/-- On a locked inode of that size, `readi` of the file system returns as many bytes. -/
theorem readi_of_inode {k : Kernel} {ip i off n : Nat} {f : List UInt8} {dst : Addr}
    (fs : Consistent k) (held : Held k ip i) (size : (k.fs.node i).size = f.length)
    (mapped : ∀ j m, j + m ≤ n → dst.copied j m = m) (sum : off + n < 2 ^ 32) :
    ∃ out, Prog.Returns (Xv6.readi ip dst off n) ((readi f off n : Int), out) k := by
  obtain ⟨D, E, ok⟩ := fs
  have loaded := held.loaded ok
  obtain ⟨r, out, returns, exact⟩ := loaded.readi_clipped dst off (show n < 2 ^ 32 by omega)
  obtain ⟨count, -⟩ := exact mapped sum
  rw [loaded.size, held.inum, ← ok.fs_eq, size] at count
  refine ⟨out, ?_⟩
  have same : readi f off n = min n (f.length - off) := by
    rw [readi, Nat.mod_eq_of_lt sum]
    split_ifs <;> omega
  rw [same, ← count]
  exact returns balloc

theorem number_lt (f : List UInt8) (off n : Nat) : number f off n < 256 ^ n := by
  have all : ∀ l : List UInt8, l.foldr (fun b v => b.toNat + 256 * v) 0 < 256 ^ l.length := by
    intro l
    induction l with
    | nil => exact Nat.one_pos
    | cons b l ih =>
      have := b.toNat_lt
      rw [List.foldr_cons, List.length_cons, pow_succ]
      omega
  exact (all _).trans_le (Nat.pow_le_pow_right (by decide) (List.length_take_le _ _))

namespace Elf

def phoff (f : List UInt8) : Nat := number f 32 8

def phnum (f : List UInt8) : Nat := number f 56 2

/-- The program header at an offset. -/
def progHdr (f : List UInt8) (off : Nat) : ProgHdr where
  type := number f off 4
  flags := number f (off + 4) 4
  vaddr := number f (off + 16) 8
  filesz := number f (off + 32) 8
  memsz := number f (off + 40) 8
  vaddr_lt := number_lt f _ 8
  memsz_lt := number_lt f _ 8

/-- Where the segment of the program header at an offset begins. -/
def segOff (f : List UInt8) (off : Nat) : Nat := number f (off + 8) 8

/-- What `exec` finds in a file. -/
def image (f : List UInt8) : Image where
  found := true
  header := if readi f 0 64 = 64 then some (number f 0 4, phnum f) else none
  progHdr i :=
    if readi f ((phoff f + i * 56) % 2 ^ 32) 56 = 56 then some (progHdr f ((phoff f + i * 56) % 2 ^ 32)) else none
  page i j :=
    let off := (phoff f + i * 56) % 2 ^ 32
    let n := min ((progHdr f off).filesz % 2 ^ 32 - j) PGSIZE
    readi f ((segOff f off % 2 ^ 32 + j) % 2 ^ 32) n = n

/-- The program headers are in the file, and so are the segments that are to be loaded. -/
def Inside (f : List UInt8) : Prop :=
  (0 < phnum f → phoff f + phnum f * 56 ≤ f.length) ∧
    ∀ i < phnum f, (progHdr f (phoff f + i * 56)).type = ELF_PROG_LOAD → 0 < (progHdr f (phoff f + i * 56)).filesz →
      segOff f (phoff f + i * 56) + (progHdr f (phoff f + i * 56)).filesz ≤ f.length

variable {f : List UInt8}

section

variable (size : f.length < 2 ^ 32)
include size

end

end Elf

end Xv6.Vm
