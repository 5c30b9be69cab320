import Elpytios.Bootinfo.Bytes
import Elpytios.Lib.ByteOrder
import Elpytios.Paging.Frame

/-!
# Page tables in memory

There is one memory, of bytes.  A page table is what the 4096 bytes of a page say, eight of them
for each entry, the lowest first, and any page can be read as one (`Bytes.tables`).

`onTables` runs a computation of `virt.rs` on memory: it reads its tables from there and leaves
them there.  As long as nothing else writes to the pages that hold the tables, it does what it
does on the tables alone, and changes no other byte (`Ram.Holds.onTables`).
-/

namespace Elpytios

open ByteOrder

/-- Byte `k` of a page table. -/
def PageTable.byte (t : PageTable) (k : ℕ) : Byte :=
  (bytesOf .little 8 (t (Fin.ofNat 512 (k / 8))).toNat).getD (k % 8) 0

/-- The page that an address is on. -/
def pageOf (p : ℕ) : PAddr := PAddr.frame ⟨BitVec.ofNat 64 p⟩

namespace Bytes

/-- A page as a page table. -/
def pageTable (mem : Bytes) (a : PAddr) : PageTable := fun i ↦
  BitVec.ofNat 64 (value .little (mem.read (a.addr.toNat + 8 * i) 8))

/-- All pages as page tables. -/
def tables (mem : Bytes) : Memory
  | .own => none
  | .page a => if a.IsPage then some (mem.pageTable a) else none

/-- Write page tables to memory. -/
def putTables (mem : Bytes) (tables : Memory) : Bytes := fun p ↦
  if p < 2 ^ 52 then
    ((tables (.page (pageOf p))).map fun t ↦ PageTable.byte t (p % PAGE_SIZE)).getD (mem p)
  else mem p

end Bytes

/-- The machine while page tables are being built: its memory, the table that is in the builder,
and the number of page tables that have been asked for. -/
structure Ram where
  mem : Bytes
  own : Option PageTable
  calls : ℕ

namespace Ram

/-- A new builder. -/
def start (mem : Bytes) : Ram := ⟨mem, some PageTable.zeroed, 0⟩

/-- The tables in memory. -/
def tables (self : Ram) : Tables where
  store
    | .own => self.own
    | .page a => self.mem.tables (.page a)
  calls := self.calls

/-- Leave tables in memory. -/
def put (self : Ram) (s : Tables) : Ram := ⟨self.mem.putTables s.store, s.store .own, s.calls⟩

end Ram

/-- Nothing that is mapped leads to the table in the builder. -/
theorem Ram.walk_tables (m : Ram) (root : PAddr) (v : VAddr) :
    walk m.tables.store (.page root) v = walk m.mem.tables (.page root) v := by
  simp only [walk, walkPdpt, walkPd, walkPt, nextTable, Ram.tables]

/-- Computations on memory. -/
abbrev RamM := EStateM Stop Ram

/-- Run a computation on the page tables in memory. -/
def onTables {α : Type} (x : MapM α) : RamM α := fun m ↦
  match x m.tables with
  | .ok a s => .ok a (m.put s)
  | .error e s => .error e (m.put s)

/-! ## Bytes and entries -/

theorem pageOf_of_isPage {a : PAddr} (ha : a.IsPage) {k : ℕ} (hk : k < PAGE_SIZE) :
    pageOf (a.addr.toNat + k) = a := by
  obtain ⟨haligned, hlt⟩ := ha
  refine PAddr.ext (BitVec.eq_of_toNat_eq ?_)
  rw [pageOf, PAddr.toNat_frame, BitVec.toNat_ofNat]
  simp only [PAGE_SIZE] at *
  omega

theorem toNat_pageOf {p : ℕ} (hp : p < 2 ^ 52) :
    (pageOf p).addr.toNat = p / PAGE_SIZE * PAGE_SIZE := by
  rw [pageOf, PAddr.toNat_frame, BitVec.toNat_ofNat, PAGE_SIZE]
  omega

namespace Bytes

variable {mem mem' : Bytes} {tables : Memory} {p : ℕ} {a : PAddr}

theorem tables_page (ha : a.IsPage) : mem.tables (.page a) = some (mem.pageTable a) := if_pos ha

/-- A page holds the same table as long as its bytes are the same. -/
theorem tables_congr (h : ∀ k < PAGE_SIZE, mem' (a.addr.toNat + k) = mem (a.addr.toNat + k)) :
    mem'.tables (.page a) = mem.tables (.page a) := by
  have htable : mem'.pageTable a = mem.pageTable a := by
    funext i
    have hi := i.isLt
    rw [pageTable, pageTable, read_congr fun j hj ↦ ?_]
    rw [Nat.add_assoc]
    exact h (8 * i + j) (by rw [PAGE_SIZE]; omega)
  simp only [Bytes.tables, htable]

/-- The bytes of a page are those of the table it holds. -/
theorem byte_pageTable (hp : p < 2 ^ 52) :
    PageTable.byte (mem.pageTable (pageOf p)) (p % PAGE_SIZE) = mem p := by
  have hi : p % PAGE_SIZE / 8 < 512 := by rw [PAGE_SIZE]; omega
  have hplace : (pageOf p).addr.toNat + 8 * (p % PAGE_SIZE / 8) + p % PAGE_SIZE % 8 = p := by
    rw [toNat_pageOf hp, PAGE_SIZE]
    omega
  have hlen : (mem.read ((pageOf p).addr.toNat + 8 * (p % PAGE_SIZE / 8)) 8).length = 8 := by
    rw [read, List.length_map, List.length_range]
  have hlt := value_lt .little (mem.read ((pageOf p).addr.toNat + 8 * (p % PAGE_SIZE / 8)) 8)
  rw [hlen] at hlt
  rw [PageTable.byte, pageTable, Fin.val_ofNat, Nat.mod_eq_of_lt hi, BitVec.toNat_ofNat,
    Nat.mod_eq_of_lt (by omega), bytesOf, lowBytes_value hlen, List.getD_eq_getElem _ _ (by omega)]
  simp only [read, List.getElem_map, List.getElem_range, hplace]

/-- A page that holds the table it held before has the bytes it had. -/
theorem putTables_of_eq
    (h : p < 2 ^ 52 → tables (.page (pageOf p)) = mem.tables (.page (pageOf p))) :
    mem.putTables tables p = mem p := by
  rw [putTables]
  split_ifs with hp
  · have hpage : (pageOf p).IsPage := PAddr.isPage_frame _
    rw [h hp, tables_page hpage, Option.map_some, Option.getD_some, byte_pageTable hp]
  · rfl

/-- What was written to a page is the table it holds. -/
theorem tables_putTables (ha : a.IsPage) {t : PageTable} (h : tables (.page a) = some t) :
    (mem.putTables tables).tables (.page a) = some t := by
  rw [tables_page ha, Option.some_inj]
  funext i
  have hi := i.isLt
  have hlt := ha.2
  have haligned := ha.1
  have hread : (mem.putTables tables).read (a.addr.toNat + 8 * i) 8 =
      bytesOf .little 8 (t i).toNat := by
    refine read_eq (length_bytesOf ..) fun j hj ↦ ?_
    rw [length_bytesOf] at hj
    have hoff : 8 * (i : ℕ) + j < PAGE_SIZE := by rw [PAGE_SIZE]; omega
    have hmod : (a.addr.toNat + 8 * i + j) % PAGE_SIZE = 8 * i + j := by
      simp only [PAGE_SIZE] at *
      omega
    have hindex : Fin.ofNat 512 ((8 * (i : ℕ) + j) / 8) = i :=
      Fin.ext (by rw [Fin.val_ofNat]; omega)
    have hplace : (8 * (i : ℕ) + j) % 8 = j := by omega
    rw [putTables, if_pos (by simp only [PAGE_SIZE] at *; omega), hmod, Nat.add_assoc,
      pageOf_of_isPage ha hoff, h, Option.map_some, Option.getD_some, PageTable.byte, hindex,
      hplace, List.getD_eq_getElem _ _ (by rw [length_bytesOf]; exact hj)]
  rw [pageTable, hread, value_bytesOf]
  exact BitVec.eq_of_toNat_eq (by rw [BitVec.toNat_ofNat]; have := (t i).isLt; omega)

end Bytes

/-! ## The tables of a tree in memory -/

/-- The byte at an address is on a page of the given kind. -/
def Within (P : PAddr → Prop) (p : ℕ) : Prop := p < 2 ^ 52 ∧ P (pageOf p)

theorem Within.imp {P Q : PAddr → Prop} {p : ℕ} (h : Within P p) (hPQ : ∀ a, P a → Q a) :
    Within Q p :=
  ⟨h.1, hPQ _ h.2⟩

/-- Memory holds the given tables, in pages of the given kind. -/
structure Ram.Holds (P : PAddr → Prop) (m : Ram) (s : Tables) : Prop where
  part : Part s m.tables
  within : ∀ a, s.store (.page a) ≠ none → P a

theorem within_of_isPage {P : PAddr → Prop} {a : PAddr} (ha : a.IsPage) (h : P a) {k : ℕ}
    (hk : k < PAGE_SIZE) : Within P (a.addr.toNat + k) := by
  refine ⟨?_, by rwa [pageOf_of_isPage ha hk]⟩
  obtain ⟨haligned, hlt⟩ := ha
  simp only [PAGE_SIZE] at *
  omega

theorem holds_start (P : PAddr → Prop) (mem : Bytes) :
    Ram.Holds P (Ram.start mem) VirtualMapBuilder.tables where
  part := ⟨rfl, fun h ↦ by simp [VirtualMapBuilder.tables] at h, rfl⟩
  within a h := absurd (by simp [VirtualMapBuilder.tables]) h

section

variable {P : PAddr → Prop} {m : Ram} {s : Tables} (h : Ram.Holds P m s)
  (hpage : ∀ a, P a → a.IsPage)

include h hpage

/-- Memory goes on holding the tables if no byte of their pages is written. -/
theorem Ram.Holds.withMem {mem : Bytes} (hmem : ∀ p, Within P p → mem p = m.mem p) :
    Ram.Holds P { m with mem := mem } s := by
  refine ⟨⟨h.part.own, fun {a x} hx ↦ ?_, h.part.calls⟩, h.within⟩
  have hP : P a := h.within a (by rw [hx]; exact Option.some_ne_none x)
  have hsame : mem.tables (.page a) = m.mem.tables (.page a) :=
    Bytes.tables_congr fun k hk ↦ hmem _ (within_of_isPage (hpage a hP) hP hk)
  exact hsame.trans (h.part.page hx)

/-- A computation on the tables in memory does what it does on the tables alone. -/
theorem Ram.Holds.onTables {alloc : NewPageTable} (hgiven : ∀ n a, alloc n = some a → P a)
    {α : Type} {x : MapM α} (hx : Framed alloc x) (hdef : answer (x s) ≠ .error .undefined) :
    answer (onTables x m) = answer (x s) ∧ Ram.Holds P (after (onTables x m)) (after (x s)) ∧
      ∀ p, ¬ Within P p → (after (onTables x m)).mem p = m.mem p := by
  have hfollows := hx.follows h.part hdef
  have hanswer : answer (Elpytios.onTables x m) = answer (x m.tables) := by
    rw [Elpytios.onTables]
    cases x m.tables <;> rfl
  have hafter : after (Elpytios.onTables x m) = m.put (after (x m.tables)) := by
    rw [Elpytios.onTables]
    cases x m.tables <;> rfl
  have hwithin : ∀ a, (after (x s)).store (.page a) ≠ none → P a := fun a ha ↦ by
    rcases hfollows.provided a ha with hs | ⟨n, hn⟩
    · exact h.within a hs
    · exact hgiven n a hn
  rw [hanswer, hafter]
  refine ⟨hfollows.answer_eq, ⟨⟨hfollows.part.own, fun {a y} hy ↦ ?_, hfollows.part.calls⟩,
    hwithin⟩, fun p hp ↦ ?_⟩
  · have hP : P a := hwithin a (by rw [hy]; exact Option.some_ne_none y)
    exact Bytes.tables_putTables (hpage a hP) (hfollows.part.page hy)
  · refine Bytes.putTables_of_eq fun hlt ↦ (hfollows.kept _ ?_).2
    by_contra hsome
    exact hp ⟨hlt, hwithin _ hsome⟩

end

end Elpytios
