import Mathlib

/-!
# Kernel parameters

The constants of `crates/param/src/lib.rs`, of the on-disk format in
`crates/fs/src/fsh.rs` and of the memory layout in `crates/arch/src/mmu.rs` and
`crates/mm/src/memlayout.rs` that the model uses, under their own names.
-/

namespace Xv6

/-! ## `param` -/

/-- Most processes at a time. -/
abbrev NPROC : ℕ := 64

/-- Slots of the inode cache. -/
abbrev NINODE : ℕ := 50

/-- Entries of the device switch. -/
abbrev NDEV : ℕ := 10

/-- The device the file system lives on. -/
abbrev ROOTDEV : ℕ := 1

/-- Blocks one file-system operation may log. -/
abbrev MAXOPBLOCKS : ℕ := 10

/-- Entries of the log header. -/
abbrev LOGSIZE : ℕ := 30

/-- Buffers of the cache. -/
abbrev NBUF : ℕ := 30

/-- Most arguments of `exec`. -/
abbrev MAXARG : ℕ := 32

/-- Open files of a process. -/
abbrev NOFILE : ℕ := 16

/-- Slots of the open-file table. -/
abbrev NFILE : ℕ := 100

/-- Blocks of the file-system image. -/
abbrev FSSIZE : ℕ := 2000

/-- Bytes of a block. -/
abbrev BSIZE : ℕ := 512

/-! ## `fsh` -/

/-- The root directory's inode number. -/
abbrev ROOTINO : ℕ := 1

/-- Direct addresses of an inode. -/
abbrev NDIRECT : ℕ := 12

/-- Addresses in an indirect block. -/
abbrev NINDIRECT : ℕ := BSIZE / 4

/-- Most blocks of a file. -/
abbrev MAXFILE : ℕ := NDIRECT + NINDIRECT

/-- Bytes of a directory entry's name. -/
abbrev DIRSIZ : ℕ := 14

/-- Inodes per block; an inode takes 64 bytes. -/
abbrev IPB : ℕ := BSIZE / 64

/-- Free-map bits per block. -/
abbrev BPB : ℕ := BSIZE * 8

/-- Bytes a pipe holds. -/
abbrev PIPESIZE : ℕ := 512

/-! ## `mmu` and `memlayout` -/

/-- Bytes of a page. -/
abbrev PGSIZE : ℕ := 4096

/-- Entries of a page table of any level. -/
abbrev NPDENTRIES : ℕ := 512

/-- First kernel virtual address. -/
abbrev KERNBASE : ℕ := 0xFFFF800000000000

/-- Top of physical memory. -/
abbrev PHYSTOP : ℕ := 0xE000000

/-- Page-table entry flags: present, writable, user. -/
abbrev PTE_P : ℕ := 0x001
abbrev PTE_W : ℕ := 0x002
abbrev PTE_U : ℕ := 0x004

/-- `LOGSIZE` and `NBUF` are both `MAXOPBLOCKS*3` in the source. -/
example : LOGSIZE = MAXOPBLOCKS * 3 ∧ NBUF = MAXOPBLOCKS * 3 := by decide

end Xv6
