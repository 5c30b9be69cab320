import Elpytios.Bootloader.Handover

/-!
# The kernel at work on its memory

The kernel is handed the mapper of its own page tables and the first address from which on nothing
is mapped.  It maps pages there and writes to memory in whatever order (`KernelOp`), all in the one
memory that its image, its stack and its page tables are in.  As long as it takes page tables from
elsewhere and writes elsewhere, it goes on seeing what it was started with (`kernel_maps_above`).
-/

namespace Elpytios

open Radix

/-! ## Operations on memory -/

/-- What the kernel does to memory. -/
inductive KernelOp where
  | /-- Map a page, with the mapper that is handed over, and panic if that fails. -/
    map (call : Call)
  | /-- Write a byte at a physical address, through whatever page leads there. -/
    write (p : ℕ) (byte : Byte)

namespace KernelOp

/-- Do one operation. -/
def run (mapper : RecursiveMapper) (new_page_table : NewPageTable) : KernelOp → RamM Unit
  | .map c =>
      onTables (unwrapOrPanic (VirtualMap.map mapper new_page_table c.p_addr c.v_addr c.flags))
  | .write p byte => fun m ↦ .ok () { m with mem := Function.update m.mem p byte }

/-- Do operations, the first one first. -/
def runAll (mapper : RecursiveMapper) (new_page_table : NewPageTable) (ops : List KernelOp) :
    RamM Unit :=
  forM ops (run mapper new_page_table)

/-- The pages that are mapped. -/
def calls : List KernelOp → List Call
  | [] => []
  | .map c :: ops => c :: calls ops
  | .write _ _ :: ops => calls ops

/-- The bytes that are written. -/
def writes : List KernelOp → Bytes → Bytes
  | [], mem => mem
  | .map _ :: ops, mem => writes ops mem
  | .write p byte :: ops, mem => writes ops (Function.update mem p byte)

/-- A byte that no operation writes stays. -/
theorem writes_of_not_mem {ops : List KernelOp} {p : ℕ}
    (h : ∀ byte, KernelOp.write p byte ∉ ops) (mem : Bytes) : writes ops mem p = mem p := by
  induction ops generalizing mem with
  | nil => rfl
  | cons op ops ih =>
      have htail : ∀ byte, KernelOp.write p byte ∉ ops :=
        fun byte hmem ↦ h byte (List.mem_cons_of_mem _ hmem)
      cases op with
      | map c => exact ih htail mem
      | write q byte =>
          have hne : p ≠ q := by
            rintro rfl
            exact h byte List.mem_cons_self
          rw [writes, ih htail, Function.update_of_ne hne]

/-- What a byte becomes does not depend on other bytes. -/
theorem writes_congr {ops : List KernelOp} {mem mem' : Bytes} {p : ℕ} (h : mem p = mem' p) :
    writes ops mem p = writes ops mem' p := by
  induction ops generalizing mem mem' with
  | nil => exact h
  | cons op ops ih =>
      cases op with
      | map c => exact ih h
      | write q byte =>
          refine ih ?_
          by_cases hpq : p = q
          · rw [hpq, Function.update_self, Function.update_self]
          · rw [Function.update_of_ne hpq, Function.update_of_ne hpq, h]

/-- Operations that write to no page of the tables do to the tables in memory what the calls among
them do to tables alone, and write what the writes among them write. -/
theorem runAll_backed {mapper : RecursiveMapper} {alloc : NewPageTable} {root : Loc} {R : Fin 512}
    {e : Word} (hm : Lawful mapper root R e) {P : PAddr → Prop} (hpage : ∀ a, P a → a.IsPage)
    (hgiven : ∀ n a, alloc n = some a → P a) {ops : List KernelOp}
    (hwrites : ∀ p byte, KernelOp.write p byte ∈ ops → ¬ Within P p) {m : Ram} {s : Tables}
    (hs : Intact alloc root R e s) (h : Ram.Holds P m s) :
    Backed P (runAll mapper alloc ops m) (mapPages mapper alloc (calls ops) s)
      (writes ops m.mem) := by
  induction ops generalizing m s with
  | nil => exact ⟨rfl, h, fun _ _ _ _ ↦ rfl⟩
  | cons op ops ih =>
      have htail : ∀ p byte, KernelOp.write p byte ∈ ops → ¬ Within P p :=
        fun p byte hmem ↦ hwrites p byte (List.mem_cons_of_mem _ hmem)
      rw [runAll, List.forM_cons, ← runAll]
      cases op with
      | map c =>
          have hcall := h.backed hpage hgiven
            ((mapper.framedMapper.map c.p_addr c.v_addr c.flags).unwrapOrPanic)
            (unwrapOrPanic_defined (map_defined hm hs c))
          have hs₁ := hs.map hm c.p_addr c.v_addr c.flags
          rw [← after_unwrapOrPanic] at hs₁
          rw [calls, mapPages_cons]
          refine hcall.bind fun {_ m₁ s₁} hmap hholds hmem ↦ ?_
          rw [hmap] at hs₁
          exact (ih htail hs₁ hholds).congr fun p hp ↦ writes_congr (hmem p hp)
      | write p byte =>
          let m₁ : Ram := { m with mem := Function.update m.mem p byte }
          have h₁ : Ram.Holds P m₁ s := h.withMem hpage fun q hq ↦ by
            have hne : q ≠ p := by
              rintro rfl
              exact hwrites q byte List.mem_cons_self hq
            exact Function.update_of_ne hne byte m.mem
          have hwrite : run mapper alloc (.write p byte) m = .ok () m₁ := rfl
          rw [run_bind_ok hwrite]
          exact ih htail hs h₁

end KernelOp

/-! ## What stays -/

/-- What is mapped outside slot 510 stays mapped. -/
structure Extended (root : Loc) (tables tables' : Memory) : Prop where
  walk_eq : ∀ {a : VAddr} {w : Walk}, a.slot 3 ≠ 510 → walk tables root a = some w →
    walk tables' root a = some w

theorem Extended.translate_eq {root : Loc} {tables tables' : Memory}
    (h : Extended root tables tables') {a : VAddr} {x : PAddr} (ha : a.slot 3 ≠ 510)
    (hx : translate tables root a = some x) : translate tables' root a = some x := by
  obtain ⟨w, hw, rfl⟩ := Option.map_eq_some_iff.mp hx
  rw [translate, h.walk_eq ha hw, Option.map_some]

theorem StackMapped.extended {next_v_addr : Word} {firmware : Firmware} {out : Handover}
    {tables tables' : Memory} (hnext : 2 ^ 64 - 2 ^ 39 ≤ next_v_addr.toNat)
    (hstack : StackMapped next_v_addr firmware out tables)
    (h : Extended (.page out.pml4_phys) tables tables') :
    StackMapped next_v_addr firmware out tables' where
  size := hstack.size
  mapped a hlo hhi := by
    obtain ⟨x, w, hx, hval, hw, hwritable⟩ := hstack.mapped a hlo hhi
    have hslot := slot_ne_of_upper (hnext.trans hlo)
    exact ⟨x, w, h.translate_eq hslot hx, hval, h.walk_eq hslot hw, hwritable⟩

/-- The page holds one of the kernel's page tables, or will. -/
def TablePage (alloc : NewPageTable) (m : Ram) (new_page_table : NewPageTable) (a : PAddr) : Prop :=
  Provided alloc m.tables a ∨ HandedOut new_page_table a

/-- The kernel maps pages from `v_addr_start` on, each of them once, with page tables that are in
none of the memory it was started with, and it writes neither there nor to page tables. -/
structure Elsewhere (alloc : NewPageTable) (k : Build) (firmware : Firmware) (out : Handover)
    (m : Ram) (new_page_table : NewPageTable) (ops : List KernelOp) : Prop where
  documented : Documented new_page_table
  fresh : ∀ {n a}, new_page_table n = some a → ¬ Provided alloc m.tables a
  image_apart : Apart new_page_table firmware.kernel_ptr.toNat
    (imageEnd firmware.kernel_ptr k.virtual_base k.next_v_addr)
  stack_apart : Apart new_page_table firmware.stack_ptr.toNat
    (firmware.stack_ptr.toNat + KERNEL_STACK_PAGES * PAGE_SIZE)
  above : ∀ c ∈ KernelOp.calls ops, out.v_addr_start.addr.toNat ≤ c.v_addr.addr.toNat
  distinct : (KernelOp.calls ops).Pairwise fun c d ↦ c.v_addr.pageIndex ≠ d.v_addr.pageIndex
  granted : Ram.Granted new_page_table (KernelOp.runAll out.virtual_map new_page_table ops) m
  written : ∀ {p byte}, KernelOp.write p byte ∈ ops →
    ¬ Within (TablePage alloc m new_page_table) p ∧
    ¬ (firmware.kernel_ptr.toNat ≤ p ∧
      p < imageEnd firmware.kernel_ptr k.virtual_base k.next_v_addr) ∧
    ¬ (firmware.stack_ptr.toNat ≤ p ∧
      p < firmware.stack_ptr.toNat + KERNEL_STACK_PAGES * PAGE_SIZE)

/-- The kernel still has what it was started with, and finds what it mapped and wrote. -/
structure Undisturbed (file : List Byte) (alloc : NewPageTable) (k : Build) (firmware : Firmware)
    (boot_info : List Byte) (out : Handover) (m m' : Ram) (new_page_table : NewPageTable)
    (ops : List KernelOp) : Prop where
  view : KernelView file k boot_info out.pml4_phys m'.mem
  stack : StackMapped k.next_v_addr firmware out m'.mem.tables
  stack_bytes : ∀ p, firmware.stack_ptr.toNat ≤ p →
    p < firmware.stack_ptr.toNat + KERNEL_STACK_PAGES * PAGE_SIZE → m'.mem p = m.mem p
  mapped : ∀ c ∈ KernelOp.calls ops, ∃ x,
    translate m'.mem.tables (.page out.pml4_phys) c.v_addr = some x ∧
      x.addr.toNat = c.p_addr.frame.addr.toNat + c.v_addr.addr.toNat % PAGE_SIZE
  written : ∀ p, ¬ Within (TablePage alloc m new_page_table) p →
    m'.mem p = KernelOp.writes ops m.mem p

section

variable {alloc : NewPageTable} (halloc : Documented alloc) {k : Build} {firmware : Firmware}
  {out : Handover} {m : Ram} {s : Tables}
  (h : Booted alloc k.kernel_segments k.virtual_base k.next_v_addr firmware out m s)
  {new_page_table : NewPageTable} {ops : List KernelOp}

include h

theorem Booted.provided_iff {a : PAddr} : Provided alloc m.tables a ↔ Provided alloc s a := by
  rw [Provided, Provided, h.holds.part.calls]

/-- The mapper that is handed over works on the tables that are built. -/
theorem Booted.lawful : Lawful out.virtual_map (.page out.pml4_phys) 510
    (NodeEntry.new Entry.WRITABLE out.pml4_phys).bits := by
  have hmapper : out.virtual_map = ⟨510, out.pml4_phys⟩ :=
    congrArg Handover.virtual_map h.handover_eq
  rw [hmapper]
  exact RecursiveMapper.lawful _ h.selfLink rfl

variable (hdocumented : Documented new_page_table)
  (hfresh : ∀ {n a}, new_page_table n = some a → ¬ Provided alloc m.tables a)

include hdocumented hfresh

/-- It goes on working on them with new page tables. -/
theorem Booted.intact_new : Intact new_page_table (.page out.pml4_phys) 510
    (NodeEntry.new Entry.WRITABLE out.pml4_phys).bits s where
  table := h.intact.table
  sound := {
    linkable {n l} _ hl := by
      obtain ⟨a, ha, rfl⟩ := supply_eq_some.mp hl
      exact hdocumented.page ha
    fresh {n l} _ hl := by
      obtain ⟨a, ha, rfl⟩ := supply_eq_some.mp hl
      by_contra hsome
      exact hfresh ha (h.provided_iff.mpr (h.holds.within a hsome))
    distinct {n m l} _ _ hn hm := by
      obtain ⟨a, ha, rfl⟩ := supply_eq_some.mp hn
      obtain ⟨b, hb, hab⟩ := supply_eq_some.mp hm
      cases hab
      exact hdocumented.distinct ha hb }

include halloc

/-- What the kernel does in memory is what the calls do to the tables that are built. -/
theorem Booted.runAll_backed (hwritten : ∀ p byte, KernelOp.write p byte ∈ ops →
      ¬ Within (TablePage alloc m new_page_table) p) :
    Backed (TablePage alloc m new_page_table)
      (KernelOp.runAll out.virtual_map new_page_table ops m)
      (mapPages out.virtual_map new_page_table (KernelOp.calls ops) s)
      (KernelOp.writes ops m.mem) := by
  have hpage : ∀ a, TablePage alloc m new_page_table a → a.IsPage := by
    rintro a (ha | ha)
    · exact halloc.isPage a ha.handedOut
    · exact hdocumented.isPage a ha
  exact KernelOp.runAll_backed h.lawful hpage (fun n a ha ↦ Or.inr ⟨n, ha⟩) hwritten
    (h.intact_new hdocumented hfresh)
    ⟨h.holds.part, fun a ha ↦ Or.inl (h.provided_iff.mpr (h.holds.within a ha))⟩

end

section

variable {alloc : NewPageTable} (halloc : Documented alloc) {k : Build} {firmware : Firmware}
  (hboot : Bootable k.kernel_segments k.virtual_base k.next_v_addr firmware) {out : Handover}
  {m : Ram} {s : Tables}
  (h : Booted alloc k.kernel_segments k.virtual_base k.next_v_addr firmware out m s)
  {new_page_table : NewPageTable} {ops : List KernelOp}
  (hops : Elsewhere alloc k firmware out m new_page_table ops)

include halloc hboot h hops

/-- Nothing else changes, and what is mapped stays mapped. -/
theorem Booted.exists_runAll :
    ∃ m', KernelOp.runAll out.virtual_map new_page_table ops m = .ok () m' ∧
      Extended (.page out.pml4_phys) m.mem.tables m'.mem.tables ∧
      (∀ c ∈ KernelOp.calls ops, ∃ x,
        translate m'.mem.tables (.page out.pml4_phys) c.v_addr = some x ∧
          x.addr.toNat = c.p_addr.frame.addr.toNat + c.v_addr.addr.toNat % PAGE_SIZE) ∧
      ∀ p, ¬ Within (TablePage alloc m new_page_table) p →
        m'.mem p = KernelOp.writes ops m.mem p := by
  have hm := h.lawful
  have hs := h.intact_new hops.documented hops.fresh
  have hbacked := h.runAll_backed halloc hops.documented hops.fresh
    fun _ _ hmem ↦ (hops.written hmem).1
  -- the calls succeed on the tables alone
  have hstart : k.next_v_addr.toNat ≤ out.v_addr_start.addr.toNat := by
    rw [congrArg Handover.v_addr_start h.handover_eq, hboot.toNat_v_addr_start]
    omega
  have hslots : ∀ c ∈ KernelOp.calls ops, c.v_addr.slot 3 ≠ 510 := fun c hc ↦
    slot_ne_of_upper (hboot.next_upper.trans (hstart.trans (hops.above c hc)))
  have hmappable : Mappable (.page out.pml4_phys) 510 s (KernelOp.calls ops) :=
    ⟨hslots, fun c hc ↦ h.laidOut.free (hops.above c hc), hops.distinct⟩
  obtain ⟨s', hs'⟩ := exists_mapPages hm hs hmappable
    ((hbacked.granted h.holds.part.calls).mp hops.granted)
  obtain ⟨m', hm'⟩ := hbacked.exists_iff.mpr ⟨s', hs'⟩
  -- and memory shows what they do there
  have hafter := hbacked.holds
  have hintact := hs.mapPages hm (KernelOp.calls ops)
  have hrest := hbacked.rest ()
  rw [hm', hs', after_ok, after_ok] at hafter
  rw [hs', after_ok] at hintact
  rw [hm', answer_ok, after_ok] at hrest
  have hwalk {a : VAddr} (ha : a.slot 3 ≠ 510) :
      walk m'.mem.tables (.page out.pml4_phys) a = walk s'.store (.page out.pml4_phys) a := by
    rw [← Ram.walk_tables]
    exact hafter.part.walk_of_tree hintact.table ha
  refine ⟨m', hm', ⟨fun {a w} ha hw ↦ ?_⟩, fun c hc ↦ ?_, hrest rfl⟩
  · rw [h.walk_eq ha] at hw
    rw [hwalk ha, eq_mapAll_of_ok hs']
    exact walk_mapAll_of_some hm hs _ ha hw
  · obtain ⟨ws, hw, hlen⟩ := (mappable_of_ok hm hs hs').2 c hc
    rw [← hwalk (hslots c hc)] at hw
    exact translate_of_walk hw hlen

variable {file : List Byte} (hbuilt : Built file k) {boot_info : List Byte}
  (hloadable : Loadable k boot_info)
  (happart : Apart alloc firmware.kernel_ptr.toNat
    (imageEnd firmware.kernel_ptr k.virtual_base k.next_v_addr))
  (hstack : Apart alloc firmware.stack_ptr.toNat
    (firmware.stack_ptr.toNat + KERNEL_STACK_PAGES * PAGE_SIZE))

include hbuilt hloadable happart hstack

/-- The kernel keeps what it was started with. -/
theorem Booted.exists_undisturbed (hview : KernelView file k boot_info out.pml4_phys m.mem) :
    ∃ m', KernelOp.runAll out.virtual_map new_page_table ops m = .ok () m' ∧
      Undisturbed file alloc k firmware boot_info out m m' new_page_table ops := by
  obtain ⟨m', hm', hextended, hmapped, hrest⟩ := h.exists_runAll halloc hboot hops
  have hnot {lo hi p : ℕ} (h₁ : Apart alloc lo hi) (h₂ : Apart new_page_table lo hi)
      (hlo : lo ≤ p) (hhi : p < hi) : ¬ Within (TablePage alloc m new_page_table) p := by
    rintro ⟨hp, hprovided | hgiven⟩
    · exact h₁.not_within hlo hhi ⟨hp, hprovided.handedOut⟩
    · exact h₂.not_within hlo hhi ⟨hp, hgiven⟩
  refine ⟨m', hm', ?_, ?_, ?_, hmapped, hrest⟩
  · refine hview.of_image hbuilt hboot hloadable (h.laidOut_mem hboot) hextended.translate_eq
      fun p hlo hhi ↦ ?_
    rw [hrest p (hnot happart hops.image_apart hlo hhi)]
    exact KernelOp.writes_of_not_mem (fun _ hmem ↦ (hops.written hmem).2.1 ⟨hlo, hhi⟩) _
  · exact ((h.laidOut_mem hboot).stackMapped hboot).extended hboot.next_upper hextended
  · intro p hlo hhi
    rw [hrest p (hnot hstack hops.stack_apart hlo hhi)]
    exact KernelOp.writes_of_not_mem (fun _ hmem ↦ (hops.written hmem).2.2 ⟨hlo, hhi⟩) _

end

/-- The kernel can map any pages from `v_addr_start` on, each of them once, as long as it has page
tables, and write to memory that is not its own, in any order.  The pages lead where they were
asked to, and what the kernel was started with stays. -/
theorem kernel_maps_above {file : List Byte} {k : Build} (h : build file = some k)
    {alloc : NewPageTable} (halloc : Documented alloc) {firmware : Firmware}
    (hboot : Bootable k.kernel_segments k.virtual_base k.next_v_addr firmware)
    (happart : Apart alloc firmware.kernel_ptr.toNat
      (imageEnd firmware.kernel_ptr k.virtual_base k.next_v_addr))
    (hstack : Apart alloc firmware.stack_ptr.toNat
      (firmware.stack_ptr.toNat + KERNEL_STACK_PAGES * PAGE_SIZE)) {boot_info : List Byte}
    (hloadable : Loadable k boot_info) {mem : Bytes}
    (hall : Ram.Granted alloc (bootKernel alloc k firmware boot_info) (Ram.start mem)) :
    ∃ out m, bootKernel alloc k firmware boot_info (Ram.start mem) = .ok out m ∧
      ∀ new_page_table ops, Elsewhere alloc k firmware out m new_page_table ops →
        ∃ m', KernelOp.runAll out.virtual_map new_page_table ops m = .ok () m' ∧
          Undisturbed file alloc k firmware boot_info out m m' new_page_table ops := by
  obtain ⟨out, m, s, hok, hbooted, hview, -⟩ :=
    exists_bootKernel h halloc hboot happart hloadable hall
  exact ⟨out, m, hok, fun new_page_table ops hops ↦ hbooted.exists_undisturbed halloc hboot hops
    (built_of_build h) hloadable happart hstack hview⟩

/-! ## The small kernel at work -/

/-- What is left in memory for the small kernel. -/
theorem booted_smallKernel {mem : Bytes} {out : Handover} {m : Ram}
    (hok : bootKernel (firstPages 7) smallKernelBuild smallFirmware [1, 2, 3] (Ram.start mem) =
      .ok out m) :
    Booted (firstPages 7) smallKernelBuild.kernel_segments smallKernelBuild.virtual_base
        smallKernelBuild.next_v_addr smallFirmware out m smallKernelTables ∧
      out = handover smallKernelBuild.next_v_addr smallFirmware ⟨0x7000⟩ ⟨510, ⟨0x7000⟩⟩ := by
  obtain ⟨out', m', s, hok', hbooted, -⟩ := exists_bootKernel build_smallKernel
    (documented_firstPages (by omega)) bootable_smallKernel apart_smallKernel
    loadable_smallKernel (granted_smallKernel mem)
  obtain ⟨rfl, rfl⟩ := EStateM.Result.ok.inj (hok'.symm.trans hok)
  have htables := hbooted.tables_eq
  have hs : s = smallKernelTables := by
    rw [smallKernelTables, htables, after_ok]
  have hanswer : answer (buildTables (firstPages 7) smallKernelBuild.kernel_segments
      smallKernelBuild.virtual_base smallKernelBuild.next_v_addr smallFirmware
      VirtualMapBuilder.tables) = .ok (handover smallKernelBuild.next_v_addr smallFirmware ⟨0x7000⟩
        ⟨510, ⟨0x7000⟩⟩) := by decide +kernel
  rw [htables, answer_ok] at hanswer
  exact ⟨hs ▸ hbooted, Except.ok.inj hanswer⟩

/-- A page for the next page table. -/
def sparePage : NewPageTable := fun n ↦ if n = 7 then some ⟨0x8000⟩ else none

/-- The kernel writes to a page, maps it where there is no PT yet, and writes to it again. -/
def smallOps : List KernelOp :=
  [.write 0x300000 0x5A, .map ⟨⟨0x300000⟩, ⟨0xffffffff80200000⟩, VFlags.WRITABLE⟩,
    .write 0x300001 0xA5]

theorem eq_of_sparePage {n : ℕ} {a : PAddr} (ha : sparePage n = some a) : n = 7 ∧ a = ⟨0x8000⟩ := by
  rw [sparePage] at ha
  split_ifs at ha with hn
  exact ⟨hn, (Option.some.inj ha).symm⟩

theorem documented_sparePage : Documented sparePage where
  page ha := by
    rw [(eq_of_sparePage ha).2]
    decide
  distinct ha hb := (eq_of_sparePage ha).1.trans (eq_of_sparePage hb).1.symm

theorem mem_smallOps {p : ℕ} {byte : Byte} (h : KernelOp.write p byte ∈ smallOps) :
    p = 0x300000 ∨ p = 0x300001 := by
  simp only [smallOps, List.mem_cons, List.not_mem_nil, or_false, KernelOp.write.injEq,
    reduceCtorEq, false_or] at h
  omega

theorem fresh_sparePage (m : Ram) {n : ℕ} {a : PAddr} (ha : sparePage n = some a) :
    ¬ Provided (firstPages 7) m.tables a := by
  rintro ⟨j, -, hj⟩
  obtain ⟨hlt, haddr⟩ := toNat_of_firstPages (by omega) hj
  rw [(eq_of_sparePage ha).2, PAGE_SIZE] at haddr
  change 0x8000 = _ at haddr
  omega

theorem smallOps_not_within (m : Ram) {p : ℕ} {byte : Byte} (h : KernelOp.write p byte ∈ smallOps) :
    ¬ Within (TablePage (firstPages 7) m sparePage) p := by
  have hp := mem_smallOps h
  rintro ⟨hlt, ⟨j, -, hj⟩ | ⟨j, hj⟩⟩
  · obtain ⟨hj, haddr⟩ := toNat_of_firstPages (by omega) hj
    rw [toNat_pageOf hlt, PAGE_SIZE] at haddr
    omega
  · have haddr : (pageOf p).addr.toNat = 0x8000 := by
      rw [(eq_of_sparePage hj).2]
      rfl
    rw [toNat_pageOf hlt, PAGE_SIZE] at haddr
    omega

theorem granted_smallOps {mem : Bytes} {out : Handover} {m : Ram}
    (hok : bootKernel (firstPages 7) smallKernelBuild smallFirmware [1, 2, 3] (Ram.start mem) =
      .ok out m) :
    Ram.Granted sparePage (KernelOp.runAll out.virtual_map sparePage smallOps) m := by
  obtain ⟨hbooted, rfl⟩ := booted_smallKernel hok
  have hwritten : ∀ p byte, KernelOp.write p byte ∈ smallOps →
      ¬ Within (TablePage (firstPages 7) m sparePage) p := fun _ _ ↦ smallOps_not_within m
  have hbacked := hbooted.runAll_backed (documented_firstPages (by omega))
    documented_sparePage (fresh_sparePage m) hwritten
  refine (hbacked.granted hbooted.holds.part.calls).mpr fun n hle hlt ↦ ?_
  have hstart : smallKernelTables.calls = 7 := by decide +kernel
  have hcalls : (after (mapPages (handover smallKernelBuild.next_v_addr smallFirmware ⟨0x7000⟩
      ⟨510, ⟨0x7000⟩⟩).virtual_map sparePage (KernelOp.calls smallOps) smallKernelTables)).calls =
        8 := by decide +kernel
  rw [hcalls] at hlt
  rw [hstart] at hle
  obtain rfl : n = 7 := by omega
  exact Option.some_ne_none _

theorem stack_apart_smallKernel : Apart (firstPages 7) smallFirmware.stack_ptr.toNat
    (smallFirmware.stack_ptr.toNat + KERNEL_STACK_PAGES * PAGE_SIZE) :=
  apart_firstPages (by omega) (by decide) _

/-- The small kernel maps a page and writes to it. -/
theorem kernel_maps_above_smallKernel :
    ∃ out m m', bootKernel (firstPages 7) smallKernelBuild smallFirmware [1, 2, 3]
        (Ram.start fun _ ↦ 0xCC) = .ok out m ∧
      KernelOp.runAll out.virtual_map sparePage smallOps m = .ok () m' ∧
      Undisturbed smallKernel (firstPages 7) smallKernelBuild smallFirmware [1, 2, 3] out m m'
        sparePage smallOps := by
  obtain ⟨out, m, hok, hrun⟩ := kernel_maps_above build_smallKernel
    (documented_firstPages (by omega)) bootable_smallKernel apart_smallKernel
    stack_apart_smallKernel loadable_smallKernel (granted_smallKernel fun _ ↦ 0xCC)
  have hops : Elsewhere (firstPages 7) smallKernelBuild smallFirmware out m sparePage smallOps :=
    { documented := documented_sparePage
      fresh := fresh_sparePage m
      image_apart := fun n a ha ↦ by rw [(eq_of_sparePage ha).2]; decide
      stack_apart := fun n a ha ↦ by rw [(eq_of_sparePage ha).2]; decide
      above := by
        rw [(booted_smallKernel hok).2]
        exact List.forall_mem_singleton.mpr (by decide)
      distinct := List.pairwise_singleton _ _
      granted := granted_smallOps hok
      written := fun hmem ↦ ⟨smallOps_not_within m hmem, by
        rcases mem_smallOps hmem with rfl | rfl <;> decide⟩ }
  obtain ⟨m', hm', hundisturbed⟩ := hrun sparePage smallOps hops
  exact ⟨out, m, m', hok, hm', hundisturbed⟩

end Elpytios
