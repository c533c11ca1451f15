import SeaOfNodes.Bytecode.Cursor
import Mathlib.Tactic.Common

/-!
# How long an instruction is

The length of a switch comes from its bounds or its count, and its cases are read one by one from the
same layout. The two agree: whatever a switch of a known length reads is a word of the instruction and
never the zero that stands for a missing word.
-/

namespace SeaOfNodes.Bytecode

variable {code : Array UInt8} {bci n offset i : Nat} {op : UInt8} {low high count w : Int32}

/-- The length of the instruction with opcode `op` at `bci`, by its form. -/
inductive Measures (code : Array UInt8) (bci : Nat) (op : UInt8) : Nat → Prop
  | tableSwitch {low high : Int32} (hform : form? op = some .tableSwitch)
      (hlow : word? code (switchOperands bci + 4) = some low)
      (hhigh : word? code (switchOperands bci + 8) = some high) (hle : low.toInt ≤ high.toInt) :
      Measures code bci op (switchOperands bci - bci + 12 + 4 * (high.toInt - low.toInt + 1).toNat)
  | lookupSwitch {count : Int32} (hform : form? op = some .lookupSwitch)
      (hcount : word? code (switchOperands bci + 4) = some count) (hle : 0 ≤ count.toInt) :
      Measures code bci op (switchOperands bci - bci + 8 + 8 * count.toInt.toNat)
  | wide {widened : UInt8} {form : Form} (hwide : form? op = some .wide)
      (hop : code[bci + 1]? = some widened) (hform : form? widened = some form)
      (hwidenable : form.isWidenable) : Measures code bci op (if form = .increment then 6 else 4)
  | fixed {info : OpcodeInfo} (hinfo : opcodeInfo? op = some info) (htable : info.form ≠ .tableSwitch)
      (hlookup : info.form ≠ .lookupSwitch) (hwide : info.form ≠ .wide) :
      Measures code bci op info.length

theorem form?_eq_some_iff {form : Form} :
    form? op = some form ↔ ∃ info, opcodeInfo? op = some info ∧ info.form = form :=
  Option.map_eq_some_iff

theorem length?_of_measures (hop : code[bci]? = some op) (h : Measures code bci op n)
    (hsize : bci + n ≤ code.size) : length? code bci = some n := by
  unfold length?
  cases h with
  | tableSwitch hform hlow hhigh hle =>
    obtain ⟨info, hinfo, hform⟩ := form?_eq_some_iff.1 hform
    have hnot : ¬ _ < _ := fun h => absurd (Int32.lt_iff_toInt_lt.1 h) (Int.not_lt.2 hle)
    simp [hop, hinfo, hform, hlow, hhigh, hnot, hsize]
  | lookupSwitch hform hcount hle =>
    obtain ⟨info, hinfo, hform⟩ := form?_eq_some_iff.1 hform
    have hnot : ¬ _ < (0 : Int32) := fun h => absurd (Int32.lt_iff_toInt_lt.1 h) (Int.not_lt.2 hle)
    simpa [hop, hinfo, hform, hcount, hnot] using hsize
  | wide hwide hop' hform hwidenable =>
    obtain ⟨info, hinfo, hwide⟩ := form?_eq_some_iff.1 hwide
    simp only [hop, hinfo, hwide, hop', hform, Option.bind_eq_bind, Option.bind_some]
    split
    · simpa using hsize
    · rename_i hne
      rw [if_neg hne] at hsize ⊢
      simp [hwidenable, hsize]
  | fixed hinfo htable hlookup hwide =>
    simp [hop, hinfo, hsize]

theorem measures_of_length? (h : length? code bci = some n) :
    (∃ op, code[bci]? = some op ∧ Measures code bci op n) ∧ bci + n ≤ code.size := by
  unfold length? at h
  simp only [Option.bind_eq_bind, Option.bind_eq_some_iff] at h
  obtain ⟨op, hop, info, hinfo, h⟩ := h
  have hfits {length : Nat} (hlength : Measures code bci op length)
      (h : (if bci + length ≤ code.size then some length else none) = some n) :
      (∃ op, code[bci]? = some op ∧ Measures code bci op n) ∧ bci + n ≤ code.size := by
    obtain ⟨hsize, rfl⟩ : _ ∧ length = n := by simpa using h
    exact ⟨⟨op, hop, hlength⟩, hsize⟩
  split at h
  · rename_i hform
    simp only [Option.bind_eq_some_iff, Int32.lt_iff_toInt_lt] at h
    obtain ⟨low, hlow, high, hhigh, h⟩ := h
    split at h
    · cases h
    · rename_i hle
      exact hfits (.tableSwitch (form?_eq_some_iff.2 ⟨info, hinfo, hform⟩) hlow hhigh (Int.not_lt.1 hle)) h
  · rename_i hform
    simp only [Option.bind_eq_some_iff, Int32.lt_iff_toInt_lt] at h
    obtain ⟨count, hcount, h⟩ := h
    split at h
    · cases h
    · rename_i hle
      exact hfits (.lookupSwitch (form?_eq_some_iff.2 ⟨info, hinfo, hform⟩) hcount (Int.not_lt.1 hle)) h
  · rename_i hwide
    simp only [Option.bind_eq_some_iff] at h
    obtain ⟨widened, hop', form, hform, h⟩ := h
    have hmeasures := Measures.wide (form?_eq_some_iff.2 ⟨info, hinfo, hwide⟩) hop' hform
    split at h
    · exact hfits (hmeasures rfl) h
    · rename_i hne
      split at h
      · rename_i hwidenable
        exact hfits (by simpa only [if_neg hne] using hmeasures hwidenable) h
      · cases h
  · rename_i htable hlookup hwide
    exact hfits (.fixed hinfo htable hlookup hwide) h

/-- Instructions of a fixed length take at least one byte. -/
theorem opcodeTable_length_pos : ∀ info ∈ opcodeTable.toList, info.length ≠ 0 ∨
    info.form = .tableSwitch ∨ info.form = .lookupSwitch ∨ info.form = .wide := by
  decide +kernel

theorem Measures.pos (h : Measures code bci op n) : 0 < n := by
  cases h with
  | tableSwitch | lookupSwitch => omega
  | wide => split <;> omega
  | @fixed info hinfo htable hlookup hwide =>
    have hmem : info ∈ opcodeTable.toList := Array.mem_toList_iff.2 (Array.mem_of_getElem? hinfo)
    have := opcodeTable_length_pos info hmem
    simp only [htable, hlookup, hwide, or_false] at this
    exact Nat.pos_of_ne_zero this

/-- An instruction takes at least one byte, and ends within the code. -/
theorem length?_bounds (h : length? code bci = some n) : 0 < n ∧ bci + n ≤ code.size := by
  obtain ⟨⟨op, -, hmeasures⟩, hsize⟩ := measures_of_length? h
  exact ⟨hmeasures.pos, hsize⟩

/-! ### The words of a switch -/

theorem switchOperands_eq (bci : Nat) : switchOperands bci = bci + (1 + (3 - bci % 4)) := by
  unfold switchOperands
  omega

/-- A word that is there is what a read gives. -/
theorem word?_eq_some_wordAt {pos : Nat} (h : pos + 4 ≤ code.size) :
    word? code pos = some (wordAt code pos) := by
  rw [wordAt, word?, if_pos h, Option.getD_some]

namespace SwitchTable

variable {s : SwitchTable}

/-- The `n` bytes of the switch hold a whole word, at a distance from the first one. -/
structure Holds (s : SwitchTable) (n offset : Nat) (w : Int32) : Prop where
  starts : s.bci < switchOperands s.bci + offset
  ends : switchOperands s.bci + offset + 4 ≤ s.bci + n
  word : word? s.code (switchOperands s.bci + offset) = some w

/-- A switch of `n` bytes over the keys from `low` to `high`. -/
structure Spans (s : SwitchTable) (n : Nat) (low high : Int32) : Prop where
  length : n = 1 + (3 - s.bci % 4) + 12 + 4 * s.size
  holds_low : s.Holds n 4 low
  holds_high : s.Holds n 8 high
  size : (s.size : Int) = high.toInt - low.toInt + 1
  nonempty : 1 ≤ s.size
  default : ∃ w, s.Holds n 0 w ∧ s.default = s.bci + w.toInt
  key : ∀ i < s.size, (s.key i).toInt = low.toInt + i
  last : s.key (s.size - 1) = high
  target : ∀ i < s.size, ∃ w, s.Holds n (12 + 4 * i) w ∧ s.target i = s.bci + w.toInt

/-- A switch of `n` bytes over `count` listed keys. -/
structure Lists (s : SwitchTable) (n : Nat) (count : Int32) : Prop where
  length : n = 1 + (3 - s.bci % 4) + 8 + 8 * s.size
  holds_count : s.Holds n 4 count
  size : (s.size : Int) = count.toInt
  default : ∃ w, s.Holds n 0 w ∧ s.default = s.bci + w.toInt
  key : ∀ i < s.size, s.Holds n (8 + 8 * i) (s.key i)
  target : ∀ i < s.size, ∃ w, s.Holds n (12 + 8 * i) w ∧ s.target i = s.bci + w.toInt

theorem word_of_word? (h : word? s.code (switchOperands s.bci + offset) = some w) : s.word offset = w := by
  rw [word, wordAt, h, Option.getD_some]

theorem holds_word (hsize : s.bci + n ≤ s.code.size)
    (hends : switchOperands s.bci + offset + 4 ≤ s.bci + n) : s.Holds n offset (s.word offset) where
  starts := by
    have := switchOperands_eq s.bci
    omega
  ends := hends
  word := word?_eq_some_wordAt (by omega)

/-- Consecutive keys do not wrap around before the last one. -/
theorem toInt_add_ofNat (h : low.toInt + i ≤ high.toInt) : (low + Int32.ofNat i).toInt = low.toInt + i := by
  have hlow := low.le_toInt
  have hhigh := high.toInt_lt
  rw [Int32.toInt_add, Int32.toInt_ofNat', Int.add_bmod_bmod]
  exact Int.bmod_eq_of_le (by simp only [Int32.size]; omega) (by simp only [Int32.size]; omega)

theorem spans_of_measures (htable : s.isTable = true) (hsize : s.bci + n ≤ s.code.size)
    (hlow : word? s.code (switchOperands s.bci + 4) = some low)
    (hhigh : word? s.code (switchOperands s.bci + 8) = some high) (hle : low.toInt ≤ high.toInt)
    (hn : n = switchOperands s.bci - s.bci + 12 + 4 * (high.toInt - low.toInt + 1).toNat) :
    s.Spans n low high := by
  have haligned := switchOperands_eq s.bci
  have hlow' := word_of_word? hlow
  have hhigh' := word_of_word? hhigh
  have hcount : (s.size : Int) = high.toInt - low.toInt + 1 := by
    rw [size, if_pos htable, hlow', hhigh']
    omega
  have hkey (i : Nat) (hi : i < s.size) : (s.key i).toInt = low.toInt + i := by
    rw [key, if_pos htable, hlow']
    have hlast : low.toInt + i ≤ high.toInt := by omega
    exact toInt_add_ofNat hlast
  have hholds (offset : Nat) (h : offset < 12 + 4 * s.size) (haligned : offset % 4 = 0) :
      s.Holds n offset (s.word offset) := holds_word hsize (by omega)
  refine ⟨by omega, hlow' ▸ hholds 4 (by omega) rfl, hhigh' ▸ hholds 8 (by omega) rfl, hcount, by omega,
    ⟨_, hholds 0 (by omega) rfl, rfl⟩, hkey, ?_, fun i hi => ⟨_, hholds (12 + 4 * i) (by omega) (by omega), ?_⟩⟩
  · apply Int32.toInt_inj.1
    rw [hkey _ (by omega)]
    omega
  · rw [target, if_pos htable]

theorem lists_of_measures (hlookup : s.isTable = false) (hsize : s.bci + n ≤ s.code.size)
    (hword : word? s.code (switchOperands s.bci + 4) = some count) (hle : 0 ≤ count.toInt)
    (hn : n = switchOperands s.bci - s.bci + 8 + 8 * count.toInt.toNat) : s.Lists n count := by
  have haligned := switchOperands_eq s.bci
  have hword' := word_of_word? hword
  have hnot : ¬ s.isTable = true := by simp [hlookup]
  have hcount : (s.size : Int) = count.toInt := by
    rw [size, if_neg hnot, hword']
    omega
  have hholds (offset : Nat) (h : offset < 8 + 8 * s.size) (haligned : offset % 4 = 0) :
      s.Holds n offset (s.word offset) := holds_word hsize (by omega)
  refine ⟨by omega, hword' ▸ hholds 4 (by omega) rfl, hcount, ⟨_, hholds 0 (by omega) rfl, rfl⟩, fun i hi => ?_,
    fun i hi => ⟨_, hholds (12 + 8 * i) (by omega) (by omega), ?_⟩⟩
  · rw [key, if_neg hnot]
    exact hholds (8 + 8 * i) (by omega) (by omega)
  · rw [target, if_neg hnot]

end SwitchTable

/-- An instruction of a known length lies within the code. If it is a switch, the words that its bounds,
its default, its keys and its targets are read from fill the instruction behind the padding. -/
theorem length?_agrees (h : length? code bci = some n) :
    1 ≤ n ∧ bci + n ≤ code.size ∧
      (code[bci]?.bind form? = some .tableSwitch →
        ∃ s low high, SwitchTable.at? code bci = some s ∧ s.Spans n low high) ∧
      (code[bci]?.bind form? = some .lookupSwitch →
        ∃ s count, SwitchTable.at? code bci = some s ∧ s.Lists n count) := by
  obtain ⟨⟨op, hop, hmeasures⟩, hsize⟩ := measures_of_length? h
  simp only [hop, Option.bind_some]
  refine ⟨hmeasures.pos, hsize, fun hform => ?_, fun hform => ?_⟩
  · have hat : SwitchTable.at? code bci = some ⟨code, bci, true⟩ := by
      simp [SwitchTable.at?, hop, hform]
    cases hmeasures with
    | tableSwitch _ hlow hhigh hle =>
      exact ⟨_, _, _, hat, SwitchTable.spans_of_measures rfl hsize hlow hhigh hle rfl⟩
    | lookupSwitch hother | wide hother => simp [hform] at hother
    | fixed hinfo htable => simp [form?, hinfo, htable] at hform
  · have hat : SwitchTable.at? code bci = some ⟨code, bci, false⟩ := by
      simp [SwitchTable.at?, hop, hform]
    cases hmeasures with
    | lookupSwitch _ hcount hle =>
      exact ⟨_, _, hat, SwitchTable.lists_of_measures rfl hsize hcount hle rfl⟩
    | tableSwitch hother | wide hother => simp [hform] at hother
    | fixed hinfo _ hlookup => simp [form?, hinfo, hlookup] at hform

/-- A table of two cases at the upper end of the range of keys, behind two bytes of padding. -/
def edgeSwitch : Array UInt8 :=
  #[0x00, 0xaa, 0, 0, 0, 0, 0, 20, 0x7f, 0xff, 0xff, 0xfe, 0x7f, 0xff, 0xff, 0xff, 0, 0, 0, 23, 0, 0, 0, 23, 0xb1]

theorem length?_agrees_edgeSwitch : length? edgeSwitch 1 = some 23 ∧
    ∃ s low high, SwitchTable.at? edgeSwitch 1 = some s ∧ s.Spans 23 low high := by
  have h : length? edgeSwitch 1 = some 23 := by decide +kernel
  exact ⟨h, (length?_agrees h).2.2.1 (by decide +kernel)⟩

end SeaOfNodes.Bytecode
