import Elpytios.Abi.Registers
import Mathlib.Data.List.Nodup
import Mathlib.Tactic.IntervalCases

/-!
# The table of system calls

The derive macro of `abi/macros/src/lib.rs`, from the enumeration as it is parsed to the functions
that are written out, and what these do when they are called (`call_of_execute`).  The macro writes
them, reports an error or panics, by the first variant that it does not accept
(`exists_execute_iff`).

How a name is put into snake case, and which names `Ident::new` takes, is up to other crates.
-/

namespace Elpytios

/-- Where the compiler shows an error. -/
inductive Span where
  | variant (ident : String)
  | args (idents : List String)
  | attr (path : String)
deriving DecidableEq, Repr

structure SynError where
  span : Span
  message : String
deriving DecidableEq, Repr

inductive Fields where
  | Named
  | Unnamed
  | Unit
deriving DecidableEq, Repr

structure Attribute where
  path : String
  /-- What there is in brackets, as identifiers with commas between them. -/
  idents : Except SynError (List String)
deriving DecidableEq, Repr

structure Variant where
  attrs : List Attribute
  ident : String
  fields : Fields
  discriminant : Option ℤ
deriving DecidableEq, Repr

structure ItemEnum where
  ident : String
  variants : List Variant
deriving DecidableEq, Repr

/-- A function that the macro writes, which calls a driver with the number of a variant and with
its own arguments. -/
structure SyscallFn where
  driver_name : String
  args : List String
  driver : String
  variant_name : String
deriving DecidableEq, Repr, Inhabited

/-- Why no functions are written. -/
inductive MacroStop where
  | error (e : SynError)
  | panic
deriving DecidableEq, Repr

/-! ## The macro -/

/-- The loop over the attributes of a variant. -/
def parseArgs (variant : Variant) :
    List Attribute → Option (List String) → Except SynError (Option (List String))
  | [], args => .ok args
  | attr :: attrs, args =>
      if attr.path = "args" then do
        let idents ← attr.idents
        if args.isSome then throw ⟨.variant variant.ident, "Duplicate `args(..)`!"⟩
        else parseArgs variant attrs (some idents)
      else parseArgs variant attrs args

def driverName (args : List String) : Except SynError String :=
  match args.length with
  | 0 => .ok "syscall0"
  | 1 => .ok "syscall1"
  | 2 => .ok "syscall2"
  | 3 => .ok "syscall3"
  | 4 => .ok "syscall4"
  | 5 => .ok "syscall5"
  | n => .error ⟨.args args, s!"Too many arguments ({n}); maximum is 5!"⟩

section

variable (to_snake_case : String → String) (is_ident : String → Bool)

/-- The function of a variant. -/
def syscallFn (variant : Variant) : Except MacroStop SyscallFn :=
  if variant.fields ≠ .Unit then
    .error (.error ⟨.variant variant.ident, "Only unit-variant is supported!"⟩)
  else do
    let args := (← (parseArgs variant variant.attrs none).mapError .error).getD []
    let driver ← (driverName args).mapError .error
    let driver_name := to_snake_case variant.ident
    -- `Ident::new` panics
    if is_ident driver_name then
      return { driver_name, args, driver, variant_name := variant.ident }
    else throw .panic

def execute (item : ItemEnum) : Except MacroStop (List SyscallFn) :=
  item.variants.mapM (syscallFn to_snake_case is_ident)

end

/-! ## The functions -/

/-- The numbers of variants, which count on from the last one that is given. -/
def discriminants (next : ℤ) : List Variant → List ℤ
  | [] => []
  | variant :: variants =>
      let n := variant.discriminant.getD next
      n :: discriminants (n + 1) variants

/-- `Self::ident as usize` -/
def ItemEnum.asUsize (item : ItemEnum) (ident : String) : Option Word :=
  (((item.variants.map (·.ident)).zip (discriminants 0 item.variants)).lookup ident).map
    (BitVec.ofInt 64)

/-- `crate::userspace` -/
def userspace (sys : Word) : String → List Word → Option Operands
  | "syscall0", [] => some (syscall0 sys)
  | "syscall1", [a0] => some (syscall1 sys a0)
  | "syscall2", [a0, a1] => some (syscall2 sys a0 a1)
  | "syscall3", [a0, a1, a2] => some (syscall3 sys a0 a1 a2)
  | "syscall4", [a0, a1, a2, a3] => some (syscall4 sys a0 a1 a2 a3)
  | "syscall5", [a0, a1, a2, a3, a4] => some (syscall5 sys a0 a1 a2 a3 a4)
  | "syscall6", [a0, a1, a2, a3, a4, a5] => some (syscall6 sys a0 a1 a2 a3 a4 a5)
  | _, _ => none

/-- What a call of a function comes to, in an enumeration. -/
def SyscallFn.call (f : SyscallFn) (item : ItemEnum) (values : List Word) : Option Operands := do
  let sys ← item.asUsize f.variant_name
  let args ← f.args.mapM fun arg ↦ (f.args.zip values).lookup arg
  userspace sys f.driver args

/-! ## What the macro accepts -/

/-- The lists of arguments among attributes. -/
def argLists (attrs : List Attribute) : List (Except SynError (List String)) :=
  (attrs.filter (·.path = "args")).map (·.idents)

/-- A variant for which a function can be written. -/
structure Variant.Supported (variant : Variant) (args : List String) : Prop where
  unit : variant.fields = .Unit
  /-- The arguments are given at most once. -/
  once : argLists variant.attrs = [] ∧ args = [] ∨ argLists variant.attrs = [.ok args]
  le : args.length ≤ 5

/-- The function can also be named. -/
def Variant.Accepted (to_snake_case : String → String) (is_ident : String → Bool)
    (variant : Variant) : Prop :=
  (∃ args, variant.Supported args) ∧ is_ident (to_snake_case variant.ident) = true

section

variable {variant : Variant} {attr : Attribute} {attrs : List Attribute} {args idents : List String}

theorem argLists_cons_of_eq (h : attr.path = "args") :
    argLists (attr :: attrs) = attr.idents :: argLists attrs := by
  rw [argLists, List.filter_cons, if_pos (decide_eq_true h)]
  rfl

theorem argLists_cons_of_ne (h : attr.path ≠ "args") :
    argLists (attr :: attrs) = argLists attrs := by
  rw [argLists, List.filter_cons, if_neg fun h' ↦ h (of_decide_eq_true h')]
  rfl

theorem parseArgs_cons_of_ne (h : attr.path ≠ "args") (args : Option (List String)) :
    parseArgs variant (attr :: attrs) args = parseArgs variant attrs args := by
  rw [parseArgs, if_neg h]

/-- After one list of arguments there must be no other. -/
theorem parseArgs_some_eq_ok {parsed : Option (List String)} :
    parseArgs variant attrs (some idents) = .ok parsed ↔
      argLists attrs = [] ∧ parsed = some idents := by
  induction attrs with
  | nil => exact ⟨fun h ↦ ⟨rfl, (Except.ok.inj h).symm⟩, fun h ↦ congrArg Except.ok h.2.symm⟩
  | cons attr attrs ih =>
      by_cases hpath : attr.path = "args"
      · rw [argLists_cons_of_eq hpath, parseArgs, if_pos hpath]
        refine iff_of_false ?_ fun h ↦ List.cons_ne_nil _ _ h.1
        rcases attr.idents with e | idents'
        · rintro ⟨⟩
        · rintro ⟨⟩
      · rw [parseArgs_cons_of_ne hpath, ih, argLists_cons_of_ne hpath]

theorem parseArgs_none_eq_ok {parsed : Option (List String)} :
    parseArgs variant attrs none = .ok parsed ↔
      argLists attrs = parsed.toList.map .ok := by
  induction attrs with
  | nil =>
      rcases parsed with - | parsed
      · exact iff_of_true rfl rfl
      · exact iff_of_false (fun h ↦ by cases h) fun h ↦ by cases h
  | cons attr attrs ih =>
      by_cases hpath : attr.path = "args"
      · rw [argLists_cons_of_eq hpath, parseArgs, if_pos hpath]
        rcases attr.idents with e | idents
        · refine iff_of_false (fun h ↦ by cases h) fun h ↦ ?_
          rcases parsed with - | parsed
          · cases h
          · cases (List.cons.inj h).1
        · refine parseArgs_some_eq_ok.trans ?_
          rcases parsed with - | parsed
          · exact iff_of_false (fun h ↦ by cases h.2) fun h ↦ by cases h
          · rw [Option.toList_some, List.map_singleton, List.cons.injEq, Except.ok.injEq, eq_comm,
              Option.some.injEq, and_comm, eq_comm]
      · rw [parseArgs_cons_of_ne hpath, ih, argLists_cons_of_ne hpath]

/-- There is a driver for up to five arguments. -/
theorem userspace_of_driverName {driver_name : String} (h : driverName args = .ok driver_name)
    {values : List Word} (hlen : values.length = args.length) (sys : Word) :
    args.length ≤ 5 ∧ userspace sys driver_name values = driver sys values := by
  rw [driverName, ← hlen] at h
  rw [← hlen]
  rcases values with - | ⟨a0, - | ⟨a1, - | ⟨a2, - | ⟨a3, - | ⟨a4, - | ⟨a5, values⟩⟩⟩⟩⟩⟩ <;>
    cases h <;> exact ⟨by simp, rfl⟩

theorem exists_driverName_iff : (∃ name, driverName args = .ok name) ↔ args.length ≤ 5 := by
  constructor
  · rintro ⟨name, h⟩
    exact (userspace_of_driverName h (List.length_replicate (a := (0 : Word))) 0).1
  · intro h
    rw [driverName]
    generalize args.length = n at h ⊢
    interval_cases n <;> exact ⟨_, rfl⟩

theorem Variant.Supported.parseArgs_eq (h : variant.Supported args) :
    ∃ parsed, parseArgs variant variant.attrs none = .ok parsed ∧ parsed.getD [] = args := by
  rcases h.once with ⟨hnil, rfl⟩ | hone
  · exact ⟨none, parseArgs_none_eq_ok.mpr hnil, rfl⟩
  · exact ⟨some args, parseArgs_none_eq_ok.mpr hone, rfl⟩

/-- The macro gets as far as the name of the function if the variant is supported. -/
theorem Variant.Supported.syscallFn_eq (h : variant.Supported args)
    (to_snake_case : String → String) (is_ident : String → Bool) :
    ∃ driver, driverName args = .ok driver ∧ syscallFn to_snake_case is_ident variant =
      if is_ident (to_snake_case variant.ident) then
        .ok ⟨to_snake_case variant.ident, args, driver, variant.ident⟩
      else .error .panic := by
  obtain ⟨parsed, hparsed, rfl⟩ := h.parseArgs_eq
  obtain ⟨driver, hdriver⟩ := exists_driverName_iff.mpr h.le
  refine ⟨driver, hdriver, ?_⟩
  rw [syscallFn, if_neg (not_not_intro h.unit), hparsed]
  change ((driverName (parsed.getD [])).mapError MacroStop.error >>= _) = _
  rw [hdriver]
  rfl

/-- Otherwise it reports an error. -/
theorem exists_syscallFn_error (h : ¬ ∃ args, variant.Supported args)
    (to_snake_case : String → String) (is_ident : String → Bool) :
    ∃ e, syscallFn to_snake_case is_ident variant = .error (.error e) := by
  rw [syscallFn]
  by_cases hunit : variant.fields = .Unit
  · rw [if_neg (not_not_intro hunit)]
    rcases hparsed : parseArgs variant variant.attrs none with e | parsed
    · exact ⟨e, rfl⟩
    · rcases hdriver : driverName (parsed.getD []) with e | driver
      · refine ⟨e, ?_⟩
        change ((driverName (parsed.getD [])).mapError MacroStop.error >>= _) = _
        rw [hdriver]
        rfl
      · refine absurd ⟨parsed.getD [], hunit, ?_, exists_driverName_iff.mp ⟨driver, hdriver⟩⟩ h
        rw [parseArgs_none_eq_ok.mp hparsed]
        rcases parsed with - | parsed
        · exact .inl ⟨rfl, rfl⟩
        · exact .inr rfl
  · rw [if_pos hunit]
    exact ⟨_, rfl⟩

end

section

variable {to_snake_case : String → String} {is_ident : String → Bool} {variant : Variant}
  {f : SyscallFn}

/-- The function that is written for a variant. -/
theorem syscallFn_eq_ok (h : syscallFn to_snake_case is_ident variant = .ok f) :
    variant.Supported f.args ∧ driverName f.args = .ok f.driver ∧
      f.driver_name = to_snake_case variant.ident ∧ f.variant_name = variant.ident := by
  by_cases hsupported : ∃ args, variant.Supported args
  · obtain ⟨args, hargs⟩ := hsupported
    obtain ⟨driver, hdriver, hf⟩ := hargs.syscallFn_eq to_snake_case is_ident
    rw [h] at hf
    split_ifs at hf
    obtain rfl := Except.ok.inj hf
    exact ⟨hargs, hdriver, rfl, rfl⟩
  · obtain ⟨e, he⟩ := exists_syscallFn_error hsupported to_snake_case is_ident
    cases h.symm.trans he

theorem exists_syscallFn_iff : (∃ f, syscallFn to_snake_case is_ident variant = .ok f) ↔
    variant.Accepted to_snake_case is_ident := by
  by_cases hsupported : ∃ args, variant.Supported args
  · obtain ⟨args, hargs⟩ := hsupported
    obtain ⟨driver, -, hf⟩ := hargs.syscallFn_eq to_snake_case is_ident
    rw [hf, Variant.Accepted, and_iff_right ⟨args, hargs⟩]
    split_ifs with hident
    · exact iff_of_true ⟨_, rfl⟩ hident
    · exact iff_of_false (fun ⟨_, h⟩ ↦ by cases h) hident
  · obtain ⟨e, he⟩ := exists_syscallFn_error hsupported to_snake_case is_ident
    rw [he]
    exact iff_of_false (fun ⟨_, h⟩ ↦ by cases h) fun h ↦ hsupported h.1

theorem syscallFn_eq_panic_iff : syscallFn to_snake_case is_ident variant = .error .panic ↔
    (∃ args, variant.Supported args) ∧ is_ident (to_snake_case variant.ident) = false := by
  by_cases hsupported : ∃ args, variant.Supported args
  · obtain ⟨args, hargs⟩ := hsupported
    obtain ⟨driver, -, hf⟩ := hargs.syscallFn_eq to_snake_case is_ident
    rw [hf, and_iff_right ⟨args, hargs⟩]
    split_ifs with hident
    · exact iff_of_false (fun h ↦ by cases h) fun h ↦ by cases h.symm.trans hident
    · exact iff_of_true rfl (Bool.eq_false_iff.mpr hident)
  · obtain ⟨e, he⟩ := exists_syscallFn_error hsupported to_snake_case is_ident
    rw [he]
    exact iff_of_false (fun h ↦ by cases h) fun h ↦ hsupported h.1

end

/-! ## The variants, in order -/

section

variable {α β ε : Type} {f : α → Except ε β} {as : List α} {bs : List β}

theorem mapM_eq_ok : as.mapM f = .ok bs ↔ List.Forall₂ (fun a b ↦ f a = .ok b) as bs := by
  induction as generalizing bs with
  | nil =>
      rw [List.mapM_nil, List.forall₂_nil_left_iff]
      exact ⟨fun h ↦ (Except.ok.inj h).symm, fun h ↦ congrArg Except.ok h.symm⟩
  | cons a as ih =>
      rw [List.mapM_cons, List.forall₂_cons_left_iff]
      rcases ha : f a with e | b
      · refine iff_of_false (fun h ↦ by cases h) ?_
        rintro ⟨b, bs, h, -⟩
        cases h
      · rcases has : as.mapM f with e | rest
        · refine iff_of_false (fun h ↦ by cases h) ?_
          rintro ⟨b, bs, -, h, -⟩
          rw [ih.mpr h] at has
          cases has
        · constructor
          · intro h
            obtain rfl := Except.ok.inj h
            exact ⟨b, rest, rfl, ih.mp has, rfl⟩
          · rintro ⟨b', rest', hb', h, rfl⟩
            obtain rfl := Except.ok.inj hb'
            rw [ih.mpr h] at has
            obtain rfl := Except.ok.inj has
            rfl

theorem exists_mapM_iff [Nonempty β] : (∃ bs, as.mapM f = .ok bs) ↔ ∀ a ∈ as, ∃ b, f a = .ok b := by
  constructor
  · rintro ⟨bs, h⟩ a hmem
    obtain ⟨k, hk, rfl⟩ := List.getElem_of_mem hmem
    have hall := List.forall₂_iff_get.mp (mapM_eq_ok.mp h)
    exact ⟨_, hall.2 k hk (hall.1 ▸ hk)⟩
  · intro h
    choose! g hg using h
    refine ⟨as.map g, mapM_eq_ok.mpr (List.forall₂_map_right_iff.mpr ?_)⟩
    exact List.forall₂_same.mpr hg

/-- The first to fail decides. -/
theorem mapM_eq_error {e : ε} : as.mapM f = .error e ↔ ∃ before a after,
    as = before ++ a :: after ∧ (∀ b ∈ before, ∃ c, f b = .ok c) ∧ f a = .error e := by
  induction as with
  | nil =>
      refine iff_of_false (fun h ↦ by cases h) ?_
      rintro ⟨before, a, after, h, -⟩
      exact List.cons_ne_nil _ _ (List.append_eq_nil_iff.mp h.symm).2
  | cons a as ih =>
      rw [List.mapM_cons]
      constructor
      · intro h
        rcases ha : f a with e' | b
        · rw [ha] at h
          obtain rfl := Except.error.inj h
          exact ⟨[], a, as, rfl, fun b hb ↦ absurd hb List.not_mem_nil, ha⟩
        · rcases has : as.mapM f with e' | bs
          · rw [ha, has] at h
            obtain rfl := Except.error.inj h
            obtain ⟨before, a', after, rfl, hbefore, ha'⟩ := ih.mp has
            exact ⟨a :: before, a', after, rfl, List.forall_mem_cons.mpr ⟨⟨b, ha⟩, hbefore⟩, ha'⟩
          · rw [ha, has] at h
            cases h
      · rintro ⟨before, a', after, has, hbefore, ha'⟩
        rcases before with - | ⟨b, before⟩
        · obtain ⟨rfl, rfl⟩ := List.cons.inj has
          rw [ha']
          rfl
        · obtain ⟨rfl, rfl⟩ := List.cons.inj has
          obtain ⟨⟨c, hc⟩, hbefore⟩ := List.forall_mem_cons.mp hbefore
          rw [hc, ih.mpr ⟨before, a', after, rfl, hbefore, ha'⟩]
          rfl

end

section

variable {to_snake_case : String → String} {is_ident : String → Bool} {item : ItemEnum}

/-- Functions are written exactly if all variants are accepted, and the macro panics exactly if the
first one that is not has no fault but its name. -/
theorem exists_execute_iff :
    ((∃ fns, execute to_snake_case is_ident item = .ok fns) ↔
      ∀ variant ∈ item.variants, variant.Accepted to_snake_case is_ident) ∧
    (execute to_snake_case is_ident item = .error .panic ↔ ∃ before variant after,
      item.variants = before ++ variant :: after ∧
      (∀ earlier ∈ before, earlier.Accepted to_snake_case is_ident) ∧
      (∃ args, variant.Supported args) ∧ is_ident (to_snake_case variant.ident) = false) := by
  refine ⟨exists_mapM_iff.trans (forall₂_congr fun _ _ ↦ exists_syscallFn_iff),
    mapM_eq_error.trans ?_⟩
  simp only [exists_syscallFn_iff, syscallFn_eq_panic_iff]

/-- Nothing is left of two underscores in snake case. -/
example : execute (fun _ ↦ "") (· ≠ "") ⟨"Syscall", [⟨[], "__", .Unit, none⟩]⟩ =
    .error .panic := by
  decide

end

/-! ## What a call comes to -/

theorem lookup_zip {α β : Type} [BEq α] [LawfulBEq α] {keys : List α} {values : List β}
    (hnodup : keys.Nodup) {k : ℕ} {key : α} {value : β} (hkey : keys[k]? = some key)
    (hvalue : values[k]? = some value) : (keys.zip values).lookup key = some value := by
  induction keys generalizing values k with
  | nil => cases hkey
  | cons key' keys ih =>
      obtain ⟨hnot, hnodup⟩ := List.nodup_cons.mp hnodup
      rcases values with - | ⟨value', values⟩
      · cases hvalue
      · rcases k with - | k
        · obtain rfl := Option.some.inj hkey
          obtain rfl := Option.some.inj hvalue
          rw [List.zip_cons_cons, List.lookup_cons_self]
        · have hne : key ≠ key' := fun h ↦ hnot (h ▸ List.mem_of_getElem? hkey)
          rw [List.zip_cons_cons, List.lookup_cons, beq_false_of_ne hne]
          exact ih hnodup hkey hvalue

theorem mapM_eq_some {α β : Type} {f : α → Option β} {as : List α} {bs : List β}
    (h : List.Forall₂ (fun a b ↦ f a = some b) as bs) : as.mapM f = some bs := by
  induction h with
  | nil => rfl
  | cons h _ ih =>
      rw [List.mapM_cons, h, ih]
      rfl

/-- Arguments are looked up by their names. -/
theorem mapM_lookup_zip {keys : List String} {values : List Word} (hnodup : keys.Nodup)
    (hlen : values.length = keys.length) :
    keys.mapM (fun key ↦ (keys.zip values).lookup key) = some values :=
  mapM_eq_some (List.forall₂_iff_get.mpr ⟨hlen.symm, fun _ hk hk' ↦
    lookup_zip hnodup (List.getElem?_eq_getElem hk) (List.getElem?_eq_getElem hk')⟩)

/-- The enumeration is one that the compiler accepts, and so are the functions.  Its numbers are
those of a type no wider than a word. -/
structure Compiles (item : ItemEnum) (fns : List SyscallFn) : Prop where
  idents : (item.variants.map (·.ident)).Nodup
  discriminants : (discriminants 0 item.variants).Nodup
  fits : (∀ n ∈ Elpytios.discriminants 0 item.variants, -2 ^ 63 ≤ n ∧ n < 2 ^ 63) ∨
    ∀ n ∈ Elpytios.discriminants 0 item.variants, 0 ≤ n ∧ n < 2 ^ 64
  args : ∀ f ∈ fns, f.args.Nodup

section

variable {to_snake_case : String → String} {is_ident : String → Bool} {item : ItemEnum}
  {fns : List SyscallFn}

theorem length_discriminants (next : ℤ) (variants : List Variant) :
    (discriminants next variants).length = variants.length := by
  induction variants generalizing next with
  | nil => rfl
  | cons variant variants ih => exact congrArg (· + 1) (ih _)

/-- Numbers are told apart in a register. -/
theorem ofInt_inj_of_compiles (hc : Compiles item fns) {n n' : ℤ}
    (hn : n ∈ discriminants 0 item.variants) (hn' : n' ∈ discriminants 0 item.variants)
    (h : BitVec.ofInt 64 n = BitVec.ofInt 64 n') : n = n' := by
  rcases hc.fits with hfits | hfits
  · have hsigned {n : ℤ} (hn : n ∈ discriminants 0 item.variants) :
        (BitVec.ofInt 64 n).toInt = n :=
      BitVec.toInt_ofInt_eq_self (by decide) (hfits n hn).1 (hfits n hn).2
    rw [← hsigned hn, ← hsigned hn', h]
  · have hunsigned {n : ℤ} (hn : n ∈ discriminants 0 item.variants) :
        ((BitVec.ofInt 64 n).toNat : ℤ) = n := by
      have := hfits n hn
      rw [BitVec.toNat_ofInt, Int.toNat_of_nonneg (Int.emod_nonneg _ (by decide))]
      exact Int.emod_eq_of_lt this.1 this.2
    rw [← hunsigned hn, ← hunsigned hn', h]

/-- Each function is that of a variant. -/
theorem exists_variant (h : execute to_snake_case is_ident item = .ok fns) {k : ℕ} {f : SyscallFn}
    (hf : fns[k]? = some f) :
    ∃ variant, item.variants[k]? = some variant ∧ variant.Supported f.args ∧
      driverName f.args = .ok f.driver ∧ f.driver_name = to_snake_case variant.ident ∧
      f.variant_name = variant.ident := by
  obtain ⟨hk, hget⟩ := List.getElem?_eq_some_iff.mp hf
  have hall := List.forall₂_iff_get.mp (mapM_eq_ok.mp h)
  have hk' : k < item.variants.length := hall.1.symm ▸ hk
  exact ⟨_, List.getElem?_eq_getElem hk',
    syscallFn_eq_ok ((hall.2 k hk' hk).trans (congrArg Except.ok hget))⟩

/-- A call passes the number of its variant and its arguments. -/
theorem call_eq (h : execute to_snake_case is_ident item = .ok fns) (hc : Compiles item fns) {k : ℕ}
    {f : SyscallFn} (hf : fns[k]? = some f) {values : List Word}
    (hlen : values.length = f.args.length) :
    ∃ n, (discriminants 0 item.variants)[k]? = some n ∧ values.length ≤ 5 ∧
      f.call item values =
        some ((.rax, BitVec.ofInt 64 n) :: argumentRegisters.zip values) := by
  obtain ⟨variant, hvariant, hsupported, hname, -, hident⟩ := exists_variant h hf
  obtain ⟨hk, -⟩ := List.getElem?_eq_some_iff.mp hvariant
  obtain ⟨n, hn⟩ : ∃ n, (discriminants 0 item.variants)[k]? = some n :=
    ⟨_, List.getElem?_eq_getElem ((length_discriminants 0 item.variants).symm ▸ hk)⟩
  have hsys : item.asUsize f.variant_name = some (BitVec.ofInt 64 n) := by
    refine congrArg (Option.map (BitVec.ofInt 64)) (lookup_zip hc.idents ?_ hn)
    rw [List.getElem?_map, hvariant, hident]
    rfl
  have hle : values.length ≤ 5 := hlen ▸ hsupported.le
  refine ⟨_, hn, hle, ?_⟩
  rw [SyscallFn.call, hsys]
  change ((f.args.mapM fun arg ↦ (f.args.zip values).lookup arg) >>= fun args ↦
    userspace (BitVec.ofInt 64 n) f.driver args) = _
  rw [mapM_lookup_zip (hc.args f (List.mem_of_getElem? hf)) hlen]
  change userspace _ f.driver values = _
  rw [(userspace_of_driverName hname hlen _).2, driver_eq _ (hle.trans (by decide))]

/-- The functions that the macro writes are called after the variants, in order.  When a call comes
to the kernel, the number of its variant and its arguments in order are in registers, and apart
from the two that the instruction overwrites, unknown to the compiler, the others are as they were.
What was called with which arguments can be told from the registers. -/
theorem call_of_execute (h : execute to_snake_case is_ident item = .ok fns)
    (hc : Compiles item fns) :
    fns.map (·.driver_name) = item.variants.map (fun variant ↦ to_snake_case variant.ident) ∧
    (∀ (k : ℕ) f values, fns[k]? = some f → values.length = f.args.length →
      ∃ operands n, f.call item values = some operands ∧
        (discriminants 0 item.variants)[k]? = some n ∧
        (∀ operand ∈ operands, operand.1 ∉ [Register.rcx, .r11]) ∧
        ∀ rip rflags regs, Passes (BitVec.ofInt 64 n) values rip rflags regs
          (operands.enter rip rflags regs)) ∧
    (∀ (k k' : ℕ) f f' values values' operands operands' rip rip' rflags rflags' regs regs',
      fns[k]? = some f → fns[k']? = some f' → values.length = f.args.length →
      values'.length = f'.args.length → f.call item values = some operands →
      f'.call item values' = some operands' →
      operands.enter rip rflags regs = operands'.enter rip' rflags' regs' →
      k = k' ∧ values = values') := by
  refine ⟨?_, fun k f values hf hlen ↦ ?_, ?_⟩
  · have hlen := (mapM_eq_ok.mp h).length_eq
    refine List.ext_getElem? fun k ↦ ?_
    rw [List.getElem?_map, List.getElem?_map]
    rcases hf : fns[k]? with - | f
    · have hge := List.getElem?_eq_none_iff.mp hf
      rw [List.getElem?_eq_none (hlen.trans_le hge)]
      rfl
    · obtain ⟨variant, hvariant, -, -, hname, -⟩ := exists_variant h hf
      rw [hvariant, Option.map_some, Option.map_some, hname]
  · obtain ⟨n, hn, hle, hcall⟩ := call_eq h hc hf hlen
    have hsix : values.length ≤ 6 := hle.trans (by decide)
    refine ⟨_, n, hcall, hn, fun operand hmem ↦ ?_, passes_enter _ hsix⟩
    exact notMem_saved (map_fst_operands _ hsix ▸ List.mem_map_of_mem hmem)
  · intro k k' f f' values values' operands operands' rip rip' rflags rflags' regs regs' hf hf' hlen
      hlen' hcall hcall' heq
    obtain ⟨n, hn, hle, hcall₁⟩ := call_eq h hc hf hlen
    obtain ⟨n', hn', hle', hcall₁'⟩ := call_eq h hc hf' hlen'
    obtain rfl := Option.some.inj (hcall.symm.trans hcall₁)
    obtain rfl := Option.some.inj (hcall'.symm.trans hcall₁')
    have hpass := passes_enter (BitVec.ofInt 64 n) (hle.trans (by decide)) rip rflags regs
    have hpass' := passes_enter (BitVec.ofInt 64 n') (hle'.trans (by decide)) rip' rflags' regs'
    rw [← heq] at hpass'
    have hnumber : n = n' := ofInt_inj_of_compiles hc (List.mem_of_getElem? hn)
      (List.mem_of_getElem? hn') (hpass.number.symm.trans hpass'.number)
    have hk : k = k' := by
      subst hnumber
      obtain ⟨hlt, -⟩ := List.getElem?_eq_some_iff.mp hn
      exact (List.getElem?_inj hlt hc.discriminants).mp (hn.trans hn'.symm)
    subst hk
    obtain rfl := Option.some.inj (hf.symm.trans hf')
    exact ⟨rfl, (hpass.inj hpass' (hlen.trans hlen'.symm) (hle.trans (by decide))).2⟩

end

/-- The enumeration of `abi/src/lib.rs`. -/
def Syscall : ItemEnum where
  ident := "Syscall"
  variants :=
    [{ attrs := [⟨"args", .ok ["file", "buffer", "len"]⟩], ident := "Write", fields := .Unit,
        discriminant := some 0 },
      { attrs := [⟨"args", .ok ["file", "buffer", "len"]⟩], ident := "Read", fields := .Unit,
        discriminant := some 1 }]

/-- `Write` and `Read` in snake case. -/
def snake (ident : String) : String :=
  if ident = "Write" then "write" else if ident = "Read" then "read" else ident

/-- A call of `read`. -/
theorem call_of_execute_read :
    ∃ fns, execute snake (· ≠ "") Syscall = .ok fns ∧ Compiles Syscall fns ∧
      fns.map (·.driver_name) = ["write", "read"] ∧
      ∀ k f, fns[k]? = some f → k = 1 →
        ∃ operands n, f.call Syscall [3, 0x1000, 64] = some operands ∧
          (discriminants 0 Syscall.variants)[k]? = some n ∧
          (∀ operand ∈ operands, operand.1 ∉ [Register.rcx, .r11]) ∧
          ∀ rip rflags regs, Passes (BitVec.ofInt 64 n) [3, 0x1000, 64] rip rflags regs
            (operands.enter rip rflags regs) := by
  have h : execute snake (· ≠ "") Syscall = .ok
      [⟨"write", ["file", "buffer", "len"], "syscall3", "Write"⟩,
        ⟨"read", ["file", "buffer", "len"], "syscall3", "Read"⟩] := by decide
  have hc : Compiles Syscall
      [⟨"write", ["file", "buffer", "len"], "syscall3", "Write"⟩,
        ⟨"read", ["file", "buffer", "len"], "syscall3", "Read"⟩] :=
    ⟨by decide, by decide, .inr (by decide), by decide⟩
  obtain ⟨hnames, hcall, -⟩ := call_of_execute h hc
  refine ⟨_, h, hc, hnames, fun k f hf hk ↦ hcall k f _ hf ?_⟩
  subst hk
  obtain rfl := Option.some.inj hf
  rfl

end Elpytios
