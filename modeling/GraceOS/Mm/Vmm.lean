import GraceOS.Lib.Radix
import GraceOS.Lib.Machine
import Mathlib.Logic.Function.Basic

/-!
# The virtual memory manager

Four levels of page tables in physical memory, which is mapped at its own addresses. The frames that
`pmm_alloc_page` answers with are a parameter.
-/

namespace graceos.mm

open radix

def PAGE_SIZE_2M : Nat := 0x200000
def PAGE_SIZE_1G : Nat := 0x40000000
def KERNEL_BASE : Nat := 0xFFFF800000000000

def VMM_PRESENT : BitVec 64 := 0x1
def VMM_WRITE : BitVec 64 := 0x2
def VMM_HUGE : BitVec 64 := 0x80
def VMM_ADDR_MASK : BitVec 64 := 0x000FFFFFFFFFF000

/-- The tests `entry & FLAG`. -/
def present (e : BitVec 64) : Bool := (e &&& VMM_PRESENT) != 0
def huge (e : BitVec 64) : Bool := (e &&& VMM_HUGE) != 0

def PML4_INDEX (v : BitVec 64) : Nat := v.toNat / 2 ^ 39 % 512
def PDPT_INDEX (v : BitVec 64) : Nat := v.toNat / 2 ^ 30 % 512
def PD_INDEX (v : BitVec 64) : Nat := v.toNat / 2 ^ 21 % 512
def PT_INDEX (v : BitVec 64) : Nat := v.toNat / 2 ^ 12 % 512

def ALIGN_DOWN_4K (x : BitVec 64) : BitVec 64 := x &&& ~~~0xFFF#64
def ALIGN_UP_4K (x : BitVec 64) : BitVec 64 := ALIGN_DOWN_4K (x + 0xFFF#64)

def virt_to_phys (virt : Nat) : Nat := if virt ≥ KERNEL_BASE then virt - KERNEL_BASE else virt

/-- The words of physical memory, the root table, and how often `pmm_alloc_page` was asked. A
pointer to a table is its address, and the null pointer is 0. -/
structure Vmm where
  mem : Nat → BitVec 64
  kernel_pml4 : Nat
  asked : Nat

namespace Vmm

variable (frames : Nat → Nat) (s : Vmm)

def set (addr : Nat) (value : BitVec 64) : Vmm := { s with mem := Function.update s.mem addr value }

def alloc_table : Nat × Vmm :=
  let phys := frames s.asked
  if phys = 0 then (0, { s with asked := s.asked + 1 })
  else (phys, { s with asked := s.asked + 1, mem := fun a => if phys ≤ a ∧ a < phys + 4096 then 0 else s.mem a })

def get_or_create_entry (table index : Nat) (create : Bool) : Nat × Vmm :=
  if table = 0 then (0, s)
  else if present (s.mem (slot table index)) ∧ huge (s.mem (slot table index)) then (0, s)
  else if !present (s.mem (slot table index)) then
    if !create then (0, s)
    else
      match s.alloc_table frames with
      | (0, s₁) => (0, s₁)
      | (new_table, s₁) =>
        let s₂ := s₁.set (slot table index) (BitVec.ofNat 64 (virt_to_phys new_table) ||| VMM_PRESENT ||| VMM_WRITE)
        ((s₂.mem (slot table index) &&& VMM_ADDR_MASK).toNat, s₂)
  else ((s.mem (slot table index) &&& VMM_ADDR_MASK).toNat, s)

/-- The entry of a huge page. -/
def huge_entry (phys flags : BitVec 64) : BitVec 64 :=
  (phys &&& VMM_ADDR_MASK) ||| (flags &&& ~~~VMM_HUGE) ||| VMM_PRESENT ||| VMM_HUGE

def vmm_map_1g (virt phys flags : BitVec 64) : Bool × Vmm :=
  if s.kernel_pml4 = 0 then (false, s)
  else if virt.toNat % PAGE_SIZE_1G ≠ 0 ∨ phys.toNat % PAGE_SIZE_1G ≠ 0 then (false, s)
  else
    match s.get_or_create_entry frames s.kernel_pml4 (PML4_INDEX virt) true with
    | (0, s₁) => (false, s₁)
    | (pdpt, s₁) => (true, s₁.set (slot pdpt (PDPT_INDEX virt)) (huge_entry phys flags))

def vmm_map_2m (virt phys flags : BitVec 64) : Bool × Vmm :=
  if s.kernel_pml4 = 0 then (false, s)
  else if virt.toNat % PAGE_SIZE_2M ≠ 0 ∨ phys.toNat % PAGE_SIZE_2M ≠ 0 then (false, s)
  else
    match s.get_or_create_entry frames s.kernel_pml4 (PML4_INDEX virt) true with
    | (0, s₁) => (false, s₁)
    | (pdpt, s₁) =>
      match s₁.get_or_create_entry frames pdpt (PDPT_INDEX virt) true with
      | (0, s₂) => (false, s₂)
      | (pd, s₂) => (true, s₂.set (slot pd (PD_INDEX virt)) (huge_entry phys flags))

/-- The walk of `vmm_map` and `vmm_unmap` to the last table, or 0. -/
def last_table (virt : BitVec 64) (create : Bool) : Nat × Vmm :=
  match s.get_or_create_entry frames s.kernel_pml4 (PML4_INDEX virt) create with
  | (0, s₁) => (0, s₁)
  | (pdpt, s₁) =>
    match s₁.get_or_create_entry frames pdpt (PDPT_INDEX virt) create with
    | (0, s₂) => (0, s₂)
    | (pd, s₂) => s₂.get_or_create_entry frames pd (PD_INDEX virt) create

def vmm_map (virt phys flags : BitVec 64) : Vmm :=
  if s.kernel_pml4 = 0 then s
  else
    match s.last_table frames (ALIGN_DOWN_4K virt) true with
    | (0, s₁) => s₁
    | (pt, s₁) => s₁.set (slot pt (PT_INDEX (ALIGN_DOWN_4K virt)))
        ((ALIGN_DOWN_4K phys &&& VMM_ADDR_MASK) ||| flags ||| VMM_PRESENT)

/-- The loop of `vmm_map_range`. Both ends are aligned, so a step never passes the end. -/
def map_loop (flags vend : BitVec 64) : (fuel : Nat) → (v p : BitVec 64) → Vmm → Vmm
  | 0, _, _, s => s
  | fuel + 1, v, p, s =>
    if v.toNat < vend.toNat then
      let r := if vend.toNat - v.toNat ≥ PAGE_SIZE_1G ∧ v.toNat % PAGE_SIZE_1G = 0 ∧ p.toNat % PAGE_SIZE_1G = 0
        then s.vmm_map_1g frames v p flags else (false, s)
      if r.1 then map_loop flags vend fuel (v + 0x40000000#64) (p + 0x40000000#64) r.2
      else
        let r := if vend.toNat - v.toNat ≥ PAGE_SIZE_2M ∧ v.toNat % PAGE_SIZE_2M = 0 ∧ p.toNat % PAGE_SIZE_2M = 0
          then r.2.vmm_map_2m frames v p flags else (false, r.2)
        if r.1 then map_loop flags vend fuel (v + 0x200000#64) (p + 0x200000#64) r.2
        else map_loop flags vend fuel (v + 0x1000#64) (p + 0x1000#64) (r.2.vmm_map frames v p flags)
    else s

def vmm_map_range (virt phys size flags : BitVec 64) : Vmm :=
  if size = 0 then s
  else
    let vstart := ALIGN_DOWN_4K virt
    let vend := ALIGN_UP_4K (virt + size)
    map_loop frames flags vend (vend.toNat - vstart.toNat) vstart (ALIGN_DOWN_4K phys) s

def vmm_unmap (virt : BitVec 64) : Vmm :=
  if s.kernel_pml4 = 0 then s
  else
    match s.last_table frames (ALIGN_DOWN_4K virt) false with
    | (0, s₁) => s₁
    | (pt, s₁) =>
      if present (s₁.mem (slot pt (PT_INDEX (ALIGN_DOWN_4K virt)))) then
        s₁.set (slot pt (PT_INDEX (ALIGN_DOWN_4K virt))) 0
      else s₁

def VMM_BOOT_MAP_MIN : Nat := 64 * 1024 * 1024

def vmm_translate (virt : BitVec 64) : BitVec 64 :=
  if s.kernel_pml4 = 0 then if virt.toNat < VMM_BOOT_MAP_MIN then virt else 0
  else
    let pdpt := (s.get_or_create_entry frames s.kernel_pml4 (PML4_INDEX virt) false).1
    if pdpt = 0 then 0
    else
      let e := s.mem (slot pdpt (PDPT_INDEX virt))
      if huge e then (e &&& VMM_ADDR_MASK) ||| (virt &&& 0x3FFFFFFF#64)
      else
        let pd := (s.get_or_create_entry frames pdpt (PDPT_INDEX virt) false).1
        if pd = 0 then 0
        else
          let e := s.mem (slot pd (PD_INDEX virt))
          if huge e then (e &&& VMM_ADDR_MASK) ||| (virt &&& 0x1FFFFF#64)
          else
            let pt := (s.get_or_create_entry frames pd (PD_INDEX virt) false).1
            if pt = 0 then 0
            else
              let e := s.mem (slot pt (PT_INDEX virt))
              if !present e then 0 else (e &&& VMM_ADDR_MASK) ||| (virt &&& 0xFFF#64)

end Vmm

inductive VmmCall where
  | map (virt phys flags : BitVec 64)
  | map_range (virt phys size flags : BitVec 64)
  | unmap (virt : BitVec 64)

def Vmm.step (frames : Nat → Nat) (s : Vmm) : VmmCall → Vmm
  | .map virt phys flags => s.vmm_map frames virt phys flags
  | .map_range virt phys size flags => s.vmm_map_range frames virt phys size flags
  | .unmap virt => s.vmm_unmap frames virt

/-- The state after `vmm_init` has allocated the root table. -/
def Vmm.start (mem : Nat → BitVec 64) (pml4 : Nat) : Vmm :=
  ⟨fun a => if pml4 ≤ a ∧ a < pml4 + 4096 then 0 else mem a, pml4, 0⟩

end graceos.mm
