import MoMiner.Native.Numerals

/-!
# Model-specific registers

The `read_msr` and `write_msr` commands of the native core (`native/core/commands.inc`), with the
records that carry the defaults through the controller (`helper/hash.js`). The registers are those
of every processing unit. A default is read from the first unit, and is written back to all.

A failing write leaves its register alone and ends its command. A masked write takes the other bits
from the register as it was.

Main results: `defaultItems_packMsr` (the texts survive the path through the controller) and
`closing_restores`.
-/

namespace MoMiner.Native.Msr

structure MsrValue where
  value : UInt64
  mask : UInt64
deriving DecidableEq

/-- `kNoMask`. -/
def fullMask : UInt64 := 0xffffffffffffffff

/-- A `std::map<uint32_t, MsrValue>`, by increasing register. -/
abbrev MsrItems := List (UInt32 × MsrValue)

/-- The keys and values of a message, or of a record of the controller: texts, with no key twice. -/
abbrev Texts := List (List Char × List Char)

/-! ## The tables -/

inductive MsrMod
  | none
  | ryzen17h
  | ryzen19h
  | ryzen19hZen4
  | ryzen1ahZen5
  | intel
  | custom
deriving DecidableEq

def msrModZen4Zen5 : MsrItems :=
  [(0xC0011020, ⟨0x0004400000000000, fullMask⟩),
   (0xC0011021, ⟨0x0004000000000040, ~~~0x20⟩),
   (0xC0011022, ⟨0x8680000401570000, fullMask⟩),
   (0xC001102b, ⟨0x2040cc10, fullMask⟩)]

def msrMods : MsrMod → Option MsrItems
  | .ryzen17h => some
    [(0xC0011020, ⟨0, fullMask⟩),
     (0xC0011021, ⟨0x40, ~~~0x20⟩),
     (0xC0011022, ⟨0x1510000, fullMask⟩),
     (0xC001102b, ⟨0x2000cc16, fullMask⟩)]
  | .ryzen19h => some
    [(0xC0011020, ⟨0x0004480000000000, fullMask⟩),
     (0xC0011021, ⟨0x001c000200000040, ~~~0x20⟩),
     (0xC0011022, ⟨0xc000000401570000, fullMask⟩),
     (0xC001102b, ⟨0x2000cc10, fullMask⟩)]
  | .ryzen19hZen4 => some msrModZen4Zen5
  | .ryzen1ahZen5 => some msrModZen4Zen5
  | .intel => some [(0x1a4, ⟨0xf, fullMask⟩)]
  | .none => Option.none
  | .custom => Option.none

/-- The processor: its table, its units (there is a first one), and whether registers can be
accessed. -/
structure Machine where
  mod : MsrMod
  first : ℕ
  others : List ℕ
  available : Bool

def Machine.units (m : Machine) : List ℕ :=
  m.first :: m.others

/-! ## Texts -/

/-- `{:#x}`. -/
def formatHex (n : ℕ) : List Char :=
  '0' :: 'x' :: Nat.toDigits 16 n

def formatItem (item : UInt32 × MsrValue) : List Char × List Char :=
  ('m' :: 's' :: 'r' :: ':' :: formatHex item.1.toNat,
    formatHex item.2.value.toNat ++ ',' :: formatHex item.2.mask.toNat)

def isMsrKey (key : List Char) : Bool :=
  "msr:0x".toList.isPrefixOf key

structure MsrSetting where
  value : List Char
  mask : List Char
deriving DecidableEq

/-- The settings that the controller keeps. -/
abbrev DefaultMsrs := List (List Char × MsrSetting)

def unpackEntry (entry : List Char × List Char) : Option (List Char × MsrSetting) :=
  if isMsrKey entry.1 then
    match entry.2.splitOn ',' with
    | [value, mask] => some (entry.1.drop 4, ⟨value, mask⟩)
    | _ => none
  else none

def unpackMsr (values : Texts) : DefaultMsrs :=
  values.filterMap unpackEntry

def packMsr (defaults : DefaultMsrs) : Texts :=
  defaults.map fun entry =>
    ('m' :: 's' :: 'r' :: ':' :: entry.1, entry.2.value ++ ',' :: entry.2.mask)

def hasPrefix0x (text : List Char) : Bool :=
  "0x".toList.isPrefixOf text

/-- The register and the default of one value of a message. -/
def parseItem (entry : List Char × List Char) : Option (UInt32 × MsrValue) := do
  let reg ← parseUnsigned (2 ^ 32 - 1) (entry.1.drop 6) 16 false
  let (valueText, maskText) ← splitOnce entry.2 ','
  if hasPrefix0x valueText && hasPrefix0x maskText then
    let value ← parseUnsigned (2 ^ 64 - 1) valueText 16 true
    let mask ← parseUnsigned (2 ^ 64 - 1) maskText 16 true
    some (UInt32.ofNat reg, ⟨UInt64.ofNat value, UInt64.ofNat mask⟩)
  else none

def setItem (items : UInt32 → Option MsrValue) (item : UInt32 × MsrValue) :
    UInt32 → Option MsrValue :=
  Function.update items item.1 (some item.2)

/-- The defaults that a message carries. -/
def defaultItems (values : Texts) (items : UInt32 → Option MsrValue) :
    Except (List Char) (UInt32 → Option MsrValue) :=
  match values with
  | [] => .ok items
  | entry :: rest =>
    if isMsrKey entry.1 then
      match parseItem entry with
      | none => .error ("Wrong value,mask MSR value: ".toList ++ entry.2)
      | some item => defaultItems rest (setItem items item)
    else defaultItems rest items

def noItems : UInt32 → Option MsrValue :=
  fun _ => none

/-! ## Reading -/

/-- The item of a register: the default of the message, or what the first unit holds. A read that
fails gives no value. -/
def readItem (defaults : UInt32 → Option MsrValue) (read : UInt32 → Option UInt64) (reg : UInt32) :
    Except (List Char) (UInt32 × MsrValue) :=
  match defaults reg with
  | some item => .ok (reg, item)
  | none =>
    match read reg with
    | none => .error ("Can't read MSR register ".toList ++ formatHex reg.toNat)
    | some value => .ok (reg, ⟨value, fullMask⟩)

/-- What both commands do first. -/
def prepare (m : Machine) (values : Texts) :
    Except (List Char) (MsrItems × (UInt32 → Option MsrValue)) :=
  match msrMods m.mod with
  | none => .error "Unsupported CPU".toList
  | some table =>
    match defaultItems values noItems with
    | .error message => .error message
    | .ok defaults =>
      if m.available then .ok (table, defaults) else .error "MSR access is unavailable".toList

def readMsr (m : Machine) (values : Texts) (read : UInt32 → Option UInt64) :
    Except (List Char) Texts := do
  let (table, defaults) ← prepare m values
  let items ← table.mapM fun entry => readItem defaults read entry.1
  return items.map formatItem

/-! ## Writing -/

/-- The registers of every unit. -/
abbrev Registers := ℕ → UInt32 → UInt64

def maskedValue (oldValue newValue mask : UInt64) : UInt64 :=
  (newValue &&& mask) ||| (oldValue &&& ~~~mask)

/-- One write to a register of a unit. -/
structure Write where
  cpu : ℕ
  reg : UInt32
  item : MsrValue
deriving DecidableEq

def Write.apply (w : Write) (regs : Registers) : Registers :=
  Function.update regs w.cpu (Function.update (regs w.cpu) w.reg
    (maskedValue (regs w.cpu w.reg) w.item.value w.item.mask))

/-- What a command leaves: the registers, the writes that were made, and the message if it threw. -/
structure Written where
  regs : Registers
  done : List Write
  error : Option (List Char)

/-- The writes of a command, up to the first one that fails. -/
def writeAll (fails : Write → Bool) : List Write → Registers → Written
  | [], regs => ⟨regs, [], none⟩
  | w :: ws, regs =>
    if fails w then
      ⟨regs, [], some ("Can't write MSR register ".toList ++ formatHex w.reg.toNat)⟩
    else
      let rest := writeAll fails ws (w.apply regs)
      { rest with done := w :: rest.done }

def isSetMsr (algo : List Char) : Bool :=
  "rx/".toList.isPrefixOf algo || algo == "ghostrider".toList || algo == "cn-heavy/xhv".toList

/-- The writes of a command: the tuning of the table, or the defaults. -/
def plannedWrites (units : List ℕ) (table : MsrItems) (defaults : UInt32 → Option MsrValue)
    (isSet : Bool) : List Write :=
  table.flatMap fun entry =>
    match if isSet then some entry.2 else defaults entry.1 with
    | none => []
    | some item => units.map fun cpu => ⟨cpu, entry.1, item⟩

def algoOf (values : Texts) : List Char :=
  (values.lookup "algo".toList).getD []

def writeMsr (m : Machine) (values : Texts) (fails : Write → Bool) (regs : Registers) : Written :=
  match prepare m values with
  | .error message => ⟨regs, [], some message⟩
  | .ok (table, defaults) =>
    writeAll fails (plannedWrites m.units table defaults (isSetMsr (algoOf values))) regs

/-- The message of `set_algo_msr`. -/
def algoCommand (defaults : DefaultMsrs) (algo : List Char) : Texts :=
  ("algo".toList, algo) :: packMsr defaults

/-- A run of commands for algorithms; every command has its own failing writes. -/
def runCommands (m : Machine) (defaults : DefaultMsrs)
    (commands : List (List Char × (Write → Bool))) (regs : Registers) : Registers :=
  commands.foldl (fun regs command =>
    (writeMsr m (algoCommand defaults command.1) command.2 regs).regs) regs

/-! ## The texts survive -/

theorem comma_notMem_formatHex (n : ℕ) : ',' ∉ formatHex n := by
  have hdigits : ∀ n, ',' ∉ Nat.toDigits 16 n := by
    intro n
    induction n using Nat.strong_induction_on with
    | _ n ih =>
      have digit : ∀ d < 16, ',' ≠ Nat.digitChar d := by decide
      rw [Nat.toDigits_eq_if (by decide)]
      split_ifs with hlt
      · simp [digit n hlt]
      · have hdiv : n / 16 < n := Nat.div_lt_self (by omega) (by decide)
        simp [ih _ hdiv, digit _ (Nat.mod_lt n (by decide))]
  simp [formatHex, hdigits n]

theorem parseUnsigned_toDigits {maximum n : ℕ} (hn : n ≤ maximum) :
    parseUnsigned maximum (Nat.toDigits 16 n) 16 false = some n := by
  rw [parseUnsigned, if_neg (by decide)]
  simp only [Bool.false_and, Bool.false_eq_true, if_false, if_neg Nat.toDigits_ne_nil]
  exact parseDigits_toDigits (by decide) (by decide) hn

theorem parseUnsigned_formatHex {maximum n : ℕ} (hn : n ≤ maximum) :
    parseUnsigned maximum (formatHex n) 16 true = some n := by
  have hhex : (true && (16 : ℕ) == 16 && hasHexPrefix (formatHex n)) = true := rfl
  rw [parseUnsigned, if_neg (by decide), if_pos hhex]
  have hdrop : (formatHex n).drop 2 = Nat.toDigits 16 n := rfl
  simp only [hdrop, if_neg Nat.toDigits_ne_nil]
  exact parseDigits_toDigits (by decide) (by decide) hn

theorem splitOnce_append {left right : List Char} (hleft : ',' ∉ left) (hright : ',' ∉ right)
    (hne : left ≠ []) (hne' : right ≠ []) :
    splitOnce (left ++ ',' :: right) ',' = some (left, right) := by
  have htake : (left ++ ',' :: right).takeWhile (· != ',') = left := by
    rw [List.takeWhile_append_of_pos]
    · simp
    · intro c hc
      simp only [bne_iff_ne, ne_eq]
      rintro rfl
      exact hleft hc
  unfold splitOnce
  simp only [htake, List.drop_left, hne, hne', or_self, if_false]
  simp [hright]

/-- The core reads what it printed. -/
theorem parseItem_formatItem (item : UInt32 × MsrValue) :
    parseItem (formatItem item) = some item := by
  obtain ⟨reg, value, mask⟩ := item
  have hreg : parseUnsigned (2 ^ 32 - 1) ((formatItem (reg, ⟨value, mask⟩)).1.drop 6) 16 false =
      some reg.toNat := parseUnsigned_toDigits (Nat.le_sub_one_of_lt reg.toNat_lt)
  have hsplit := splitOnce_append (comma_notMem_formatHex value.toNat)
    (comma_notMem_formatHex mask.toNat) (List.cons_ne_nil _ _) (List.cons_ne_nil _ _)
  have hvalue : parseUnsigned (2 ^ 64 - 1) (formatHex value.toNat) 16 true = some value.toNat :=
    parseUnsigned_formatHex (Nat.le_sub_one_of_lt value.toNat_lt)
  have hmask : parseUnsigned (2 ^ 64 - 1) (formatHex mask.toNat) 16 true = some mask.toNat :=
    parseUnsigned_formatHex (Nat.le_sub_one_of_lt mask.toNat_lt)
  have hboth : (hasPrefix0x (formatHex value.toNat) && hasPrefix0x (formatHex mask.toNat)) = true :=
    rfl
  simp only [parseItem, hreg, Option.bind_eq_bind, Option.bind_some]
  simp only [formatItem, hsplit, Option.bind_some, hboth, if_true, hvalue, hmask,
    UInt32.ofNat_toNat, UInt64.ofNat_toNat]

/-- The controller hands on what the core printed. -/
theorem packMsr_unpackMsr (items : MsrItems) :
    packMsr (unpackMsr (items.map formatItem)) = items.map formatItem := by
  induction items with
  | nil => rfl
  | cons item items ih =>
    have hsplit : (formatItem item).2.splitOn ',' =
        [formatHex item.2.value.toNat, formatHex item.2.mask.toNat] := by
      rw [formatItem, List.splitOn_append_cons_self_of_not_mem (comma_notMem_formatHex _),
        List.splitOn_eq_singleton (comma_notMem_formatHex _)]
    have hunpack : unpackEntry (formatItem item) = some (formatHex item.1.toNat,
        ⟨formatHex item.2.value.toNat, formatHex item.2.mask.toNat⟩) := by
      have hkey : isMsrKey (formatItem item).1 = true := rfl
      rw [unpackEntry, if_pos hkey, hsplit]
      rfl
    rw [List.map_cons, unpackMsr, List.filterMap_cons_some hunpack, ← unpackMsr, packMsr,
      List.map_cons, ← packMsr, ih]
    rfl

theorem defaultItems_map (items : MsrItems) (acc : UInt32 → Option MsrValue) :
    defaultItems (items.map formatItem) acc =
      .ok (items.foldl setItem acc) := by
  induction items generalizing acc with
  | nil => rfl
  | cons item items ih =>
    have hkey : isMsrKey (formatItem item).1 = true := rfl
    rw [List.map_cons, defaultItems, if_pos hkey, parseItem_formatItem]
    exact ih _

theorem foldl_setItem {items : MsrItems} (hnodup : (items.map Prod.fst).Nodup)
    (acc : UInt32 → Option MsrValue) (reg : UInt32) :
    items.foldl setItem acc reg = (items.lookup reg).or (acc reg) := by
  induction items generalizing acc with
  | nil => rfl
  | cons item items ih =>
    rw [List.map_cons, List.nodup_cons] at hnodup
    rw [List.foldl_cons, ih hnodup.2, List.lookup_cons]
    by_cases hreg : reg = item.1
    · subst hreg
      have hnone : items.lookup item.1 = none := by
        rw [List.lookup_eq_none_iff]
        intro entry hentry
        simp only [bne_iff_ne, ne_eq]
        rintro heq
        exact hnodup.1 (heq ▸ List.mem_map_of_mem hentry)
      simp [hnone, setItem]
    · rw [setItem, Function.update_of_ne hreg, beq_false_of_ne hreg]

/-- **The texts survive**: what was printed for different registers, handed on by the controller
and parsed again, gives every register its value and mask. -/
theorem defaultItems_packMsr {items : MsrItems} (hnodup : (items.map Prod.fst).Nodup) :
    defaultItems (packMsr (unpackMsr (items.map formatItem))) noItems =
      .ok fun reg => items.lookup reg := by
  rw [packMsr_unpackMsr, defaultItems_map]
  congr 1
  funext reg
  rw [foldl_setItem hnodup, noItems, Option.or_none]

/-! ## The writes -/

theorem maskedValue_fullMask (oldValue newValue : UInt64) :
    maskedValue oldValue newValue fullMask = newValue := by
  have hfull : fullMask = -1 := rfl
  rw [maskedValue, hfull]
  simp

theorem Write.apply_self (w : Write) (regs : Registers) : w.apply regs w.cpu w.reg =
    maskedValue (regs w.cpu w.reg) w.item.value w.item.mask := by
  rw [Write.apply, Function.update_self, Function.update_self]

theorem Write.apply_of_ne {w : Write} {cpu : ℕ} {reg : UInt32} (h : ¬ (cpu = w.cpu ∧ reg = w.reg))
    (regs : Registers) : w.apply regs cpu reg = regs cpu reg := by
  rw [Write.apply]
  by_cases hcpu : cpu = w.cpu
  · subst hcpu
    rw [Function.update_self, Function.update_of_ne fun hreg => h ⟨rfl, hreg⟩]
  · rw [Function.update_of_ne hcpu]

theorem mem_plan_of_done {fails : Write → Bool} {ws : List Write} {regs : Registers} {w : Write}
    (h : w ∈ (writeAll fails ws regs).done) : w ∈ ws := by
  induction ws generalizing regs with
  | nil => exact absurd h List.not_mem_nil
  | cons w' ws ih =>
    rw [writeAll] at h
    split_ifs at h with hfail
    · exact absurd h List.not_mem_nil
    · rcases List.mem_cons.mp h with rfl | h
      · exact List.mem_cons_self
      · exact List.mem_cons_of_mem _ (ih h)

/-- A register that only the same full write goes to keeps that value once it was made. -/
theorem writeAll_keeps {fails : Write → Bool} {ws : List Write} {cpu : ℕ} {reg : UInt32}
    {value : UInt64} (hsame : ∀ w ∈ ws, w.reg = reg → w.item = ⟨value, fullMask⟩)
    {regs : Registers} (h : regs cpu reg = value) :
    (writeAll fails ws regs).regs cpu reg = value := by
  induction ws generalizing regs with
  | nil => exact h
  | cons w ws ih =>
    rw [writeAll]
    split_ifs with hfail
    · exact h
    · refine ih (fun w' hw' => hsame w' (List.mem_cons_of_mem _ hw')) ?_
      by_cases hw : cpu = w.cpu ∧ reg = w.reg
      · obtain ⟨rfl, rfl⟩ := hw
        rw [Write.apply_self, hsame w List.mem_cons_self rfl, maskedValue_fullMask]
      · rw [Write.apply_of_ne hw, h]

theorem writeAll_writes {fails : Write → Bool} {ws : List Write} {value : UInt64} {w : Write}
    (hsame : ∀ w' ∈ ws, w'.reg = w.reg → w'.item = ⟨value, fullMask⟩) {regs : Registers}
    (h : w ∈ (writeAll fails ws regs).done) :
    (writeAll fails ws regs).regs w.cpu w.reg = value := by
  induction ws generalizing regs with
  | nil => exact absurd h List.not_mem_nil
  | cons w' ws ih =>
    have hrest : ∀ w'' ∈ ws, w''.reg = w.reg → w''.item = ⟨value, fullMask⟩ :=
      fun w'' hw'' => hsame w'' (List.mem_cons_of_mem _ hw'')
    rw [writeAll] at h ⊢
    split_ifs at h ⊢ with hfail
    · exact absurd h List.not_mem_nil
    · rcases List.mem_cons.mp h with rfl | h
      · refine writeAll_keeps hrest ?_
        rw [Write.apply_self, hsame w List.mem_cons_self rfl, maskedValue_fullMask]
      · exact ih hrest h

/-! ## Restoring -/

theorem nodup_msrMods {mod : MsrMod} {table : MsrItems} (h : msrMods mod = some table) :
    (table.map Prod.fst).Nodup := by
  cases mod <;> cases h <;> decide

theorem prepare_eq_ok {m : Machine} {values : Texts} {table : MsrItems}
    {defaults : UInt32 → Option MsrValue} (h : prepare m values = .ok (table, defaults)) :
    msrMods m.mod = some table ∧ defaultItems values noItems = .ok defaults ∧ m.available := by
  unfold prepare at h
  split at h
  · cases h
  · split at h
    · cases h
    · split_ifs at h with havailable
      cases h
      exact ⟨by assumption, by assumption, havailable⟩

theorem prepare_of_ok {m : Machine} {values values' : Texts} {table : MsrItems}
    {defaults defaults' : UInt32 → Option MsrValue} (h : prepare m values = .ok (table, defaults))
    (h' : defaultItems values' noItems = .ok defaults') :
    prepare m values' = .ok (table, defaults') := by
  obtain ⟨htable, -, havailable⟩ := prepare_eq_ok h
  simp only [prepare, htable, h', havailable, if_true]

theorem readItem_eq_ok {defaults : UInt32 → Option MsrValue} {read : UInt32 → Option UInt64}
    {reg : UInt32} {item : UInt32 × MsrValue} (h : readItem defaults read reg = .ok item) :
    item.1 = reg ∧ (defaults reg = none → ∃ value, read reg = some value ∧
      item.2 = ⟨value, fullMask⟩) := by
  unfold readItem at h
  split at h
  · cases h
    refine ⟨rfl, fun hnone => ?_⟩
    simp_all
  · split at h
    · cases h
    · cases h
      exact ⟨rfl, fun _ => ⟨_, by assumption, rfl⟩⟩

theorem mapM_readItem {defaults : UInt32 → Option MsrValue} {read : UInt32 → Option UInt64}
    {table items : MsrItems}
    (h : table.mapM (fun entry => readItem defaults read entry.1) = .ok items) :
    items.map Prod.fst = table.map Prod.fst ∧
      ∀ item ∈ items, readItem defaults read item.1 = .ok item := by
  induction table generalizing items with
  | nil =>
    cases h
    exact ⟨rfl, fun item hitem => absurd hitem List.not_mem_nil⟩
  | cons entry table ih =>
    rw [List.mapM_cons] at h
    simp only [Except.bind_eq_ok] at h
    obtain ⟨item, hitem, rest, hrest, heq⟩ := h
    cases heq
    obtain ⟨hfst, hall⟩ := ih hrest
    have hreg := (readItem_eq_ok hitem).1
    refine ⟨by rw [List.map_cons, List.map_cons, hfst, hreg], ?_⟩
    rw [List.forall_mem_cons]
    exact ⟨hreg ▸ hitem, hall⟩

/-- The registers and values that `read_msr` prints. -/
theorem readMsr_eq_ok {m : Machine} {preset : Texts} {read : UInt32 → Option UInt64}
    {printed : Texts} (h : readMsr m preset read = .ok printed) :
    ∃ table presetItems, ∃ items : MsrItems, prepare m preset = .ok (table, presetItems) ∧
      printed = items.map formatItem ∧ (items.map Prod.fst).Nodup ∧
      ∀ item ∈ items, readItem presetItems read item.1 = .ok item := by
  simp only [readMsr, Except.bind_eq_ok] at h
  obtain ⟨⟨table, presetItems⟩, hprepare, items, hitems, heq⟩ := h
  cases heq
  obtain ⟨hfst, hall⟩ := mapM_readItem hitems
  exact ⟨table, presetItems, items, hprepare, rfl,
    hfst ▸ nodup_msrMods (prepare_eq_ok hprepare).1, hall⟩

/-- The defaults that the controller keeps and sends back. -/
theorem kept_defaults {m : Machine} {preset kept : Texts} {read : UInt32 → Option UInt64}
    {printed : Texts} (h : readMsr m preset read = .ok printed) (hkept : kept.Sublist printed) :
    ∃ table presetItems defaults, prepare m preset = .ok (table, presetItems) ∧
      prepare m (packMsr (unpackMsr kept)) = .ok (table, defaults) ∧
      ∀ reg item, defaults reg = some item → presetItems reg = none →
        ∃ value, read reg = some value ∧ item = ⟨value, fullMask⟩ := by
  obtain ⟨table, presetItems, items, hprepare, rfl, hnodup, hall⟩ := readMsr_eq_ok h
  obtain ⟨items', hsub, rfl⟩ := List.sublist_map_iff.mp hkept
  have hdefaults := defaultItems_packMsr (hnodup.sublist (hsub.map Prod.fst))
  refine ⟨table, presetItems, _, hprepare, prepare_of_ok hprepare hdefaults, ?_⟩
  intro reg item hlookup hnone
  obtain ⟨before, after, heq, -⟩ := List.lookup_eq_some_iff.mp hlookup
  have hmem : (reg, item) ∈ items := hsub.subset (by simp [heq])
  exact (readItem_eq_ok (hall _ hmem)).2 hnone

/-- The controller's record names no algorithm. -/
theorem algoOf_packMsr (defaults : DefaultMsrs) : algoOf (packMsr defaults) = [] := by
  have hnone : (packMsr defaults).lookup "algo".toList = none := by
    rw [List.lookup_eq_none_iff]
    intro entry hentry
    obtain ⟨entry', -, rfl⟩ := List.mem_map.mp hentry
    rfl
  rw [algoOf, hnone, Option.getD_none]

/-- A command for an algorithm without tuning writes the defaults. -/
theorem writeMsr_algoCommand {algo : List Char} (h : isSetMsr algo = false) (m : Machine)
    (defaults : DefaultMsrs) (fails : Write → Bool) (regs : Registers) :
    writeMsr m (algoCommand defaults algo) fails regs =
      writeMsr m (packMsr defaults) fails regs := by
  have hprepare : prepare m (algoCommand defaults algo) = prepare m (packMsr defaults) := rfl
  have hnone : isSetMsr (algoOf (packMsr defaults)) = false := by
    rw [algoOf_packMsr]
    rfl
  have halgo : isSetMsr (algoOf (algoCommand defaults algo)) = false := h
  rw [writeMsr, writeMsr, hprepare, hnone, halgo]

/-- What the closing command writes to a register is its default. -/
theorem item_of_mem_plan {units : List ℕ} {table : MsrItems}
    {defaults : UInt32 → Option MsrValue} {w : Write}
    (h : w ∈ plannedWrites units table defaults false) : defaults w.reg = some w.item := by
  obtain ⟨entry, -, hw⟩ := List.mem_flatMap.mp h
  simp only [Bool.false_eq_true, if_false] at hw
  split at hw
  · exact absurd hw List.not_mem_nil
  · obtain ⟨cpu, -, rfl⟩ := List.mem_map.mp hw
    assumption

/-- The closing command gives a register its default on every unit where its write was made. -/
theorem closing_write {m : Machine} {preset kept : Texts} {read : UInt32 → Option UInt64}
    {printed : Texts} (h : readMsr m preset read = .ok printed) (hkept : kept.Sublist printed)
    {fails : Write → Bool} {regs : Registers} {w : Write}
    (hdone : w ∈ (writeMsr m (packMsr (unpackMsr kept)) fails regs).done)
    (hread : ∀ presetItems, defaultItems preset noItems = .ok presetItems →
      presetItems w.reg = none) :
    ∃ value, read w.reg = some value ∧
      (writeMsr m (packMsr (unpackMsr kept)) fails regs).regs w.cpu w.reg = value := by
  obtain ⟨table, presetItems, defaults, hprepare, hclosing, hvalues⟩ := kept_defaults h hkept
  have hset : isSetMsr (algoOf (packMsr (unpackMsr kept))) = false := by
    rw [algoOf_packMsr]
    rfl
  rw [writeMsr, hclosing] at hdone ⊢
  simp only [hset] at hdone ⊢
  have hitem := item_of_mem_plan (mem_plan_of_done hdone)
  obtain ⟨value, hvalue, hfull⟩ :=
    hvalues _ _ hitem (hread _ (prepare_eq_ok hprepare).2.1)
  refine ⟨value, hvalue, writeAll_writes (fun w' hw' hreg => ?_) hdone⟩
  have hitem' := item_of_mem_plan hw'
  rw [hreg, hitem] at hitem'
  exact (Option.some.inj hitem').symm.trans hfull

/-- **Restoring**, after any run of commands. A register whose default was read and whose closing
writes were made holds on every unit what the first unit held in the beginning; a command for an
algorithm without tuning does what the closing command does; and the printed texts keep every
register, value and mask. -/
theorem closing_restores (m : Machine) (preset : Texts) (regs : Registers)
    (read : UInt32 → Option UInt64)
    (hreads : ∀ reg value, read reg = some value → value = regs m.first reg)
    (printed : Texts) (hprinted : readMsr m preset read = .ok printed)
    (kept : Texts) (hkept : kept.Sublist printed) :
    (∀ commands fails reg,
      let closing := writeMsr m (packMsr (unpackMsr kept)) fails
        (runCommands m (unpackMsr kept) commands regs)
      (∀ presetItems, defaultItems preset noItems = .ok presetItems → presetItems reg = none) →
      (∀ cpu ∈ m.units, ∃ w ∈ closing.done, w.cpu = cpu ∧ w.reg = reg) →
      ∀ cpu ∈ m.units, closing.regs cpu reg = regs m.first reg) ∧
    (∀ algo fails regs', isSetMsr algo = false →
      writeMsr m (algoCommand (unpackMsr kept) algo) fails regs' =
        writeMsr m (packMsr (unpackMsr kept)) fails regs') ∧
    (∀ items : MsrItems, (items.map Prod.fst).Nodup →
      defaultItems (packMsr (unpackMsr (items.map formatItem))) noItems =
        .ok fun reg => items.lookup reg) := by
  refine ⟨?_, fun algo fails regs' h => writeMsr_algoCommand h m _ fails regs',
    fun (items : MsrItems) hnodup => defaultItems_packMsr hnodup⟩
  intro commands fails reg closing hread hdone cpu hcpu
  obtain ⟨w, hw, rfl, rfl⟩ := hdone cpu hcpu
  obtain ⟨value, hvalue, hregs⟩ := closing_write hprinted hkept hw hread
  rw [hregs]
  exact hreads _ _ hvalue

/-- An Intel processor with two units. -/
def twoUnits : Machine :=
  ⟨.intel, 0, [1], true⟩

theorem closing_restores_twoUnits :
    (writeMsr twoUnits (packMsr (unpackMsr [formatItem (0x1a4, ⟨5, fullMask⟩)])) (fun _ => false)
      (runCommands twoUnits (unpackMsr [formatItem (0x1a4, ⟨5, fullMask⟩)])
        [("rx/0".toList, fun _ => false)] fun _ _ => 5)).regs 1 0x1a4 = 5 := by
  have hread : ∀ presetItems, defaultItems [] noItems = .ok presetItems →
      presetItems 0x1a4 = none := by
    intro presetItems h
    cases h
    rfl
  exact (closing_restores twoUnits [] (fun _ _ => 5) (fun _ => some 5)
    (fun _ _ h => (Option.some.inj h).symm) _ (by decide) _ (List.Sublist.refl _)).1 _ _ 0x1a4
    hread (by decide) 1 (by decide)

/-- A second unit that differs from the first one is given the first one's value. -/
theorem second_unit_not_restored :
    let regs : Registers := fun cpu _ => UInt64.ofNat cpu
    ∃ printed, readMsr twoUnits [] (fun reg => some (regs 0 reg)) = .ok printed ∧
      let closing := writeMsr twoUnits (packMsr (unpackMsr printed)) (fun _ => false)
        (runCommands twoUnits (unpackMsr printed) [] regs)
      closing.error = none ∧
      (∀ cpu ∈ twoUnits.units, ∃ w ∈ closing.done, w.cpu = cpu ∧ w.reg = 0x1a4) ∧
      closing.regs 1 0x1a4 ≠ regs 1 0x1a4 := by
  refine ⟨[formatItem (0x1a4, ⟨0, fullMask⟩)], by decide, by decide, by decide, by decide⟩

end MoMiner.Native.Msr
