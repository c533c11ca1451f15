import SeaOfNodes.Bytecode.Assembler
import SeaOfNodes.Proofs.Bytecode.Walk

/-!
# How instructions are encoded

The bytes of one instruction, said without reading them: an opcode with operands of a fixed number of
bytes, a branch with the distance to its target, a switch with padding and tables of words, or `wide`
before an instruction that it can widen. The alignment of a switch makes its encoding depend on where
it starts. A cursor reads back from the bytes of an instruction what they encode, and whatever it can
read was encoded so.
-/

namespace SeaOfNodes.Bytecode

variable {code : Array UInt8} {bci pos n : Nat} {rest bytes : List UInt8} {words : List Int32} {w : Int32}

/-! ### Numbers as bytes -/

theorem shortBytes_join (a b : UInt8) : shortBytes (a.toUInt16 <<< 8 ||| b.toUInt16) = [a, b] := by
  unfold shortBytes
  congr 1
  · apply UInt8.toBitVec_inj.1
    ext i hi
    simp
    grind
  · congr 1
    apply UInt8.toBitVec_inj.1
    ext i hi
    simp

theorem join_shortBytes (n : UInt16) :
    (n >>> 8).toUInt8.toUInt16 <<< 8 ||| n.toUInt8.toUInt16 = n := by
  apply UInt16.toBitVec_inj.1
  ext i hi
  simp [-UInt16.toUInt16_toUInt8]
  grind

theorem wordBytes_eq_append (n : UInt32) :
    wordBytes n = shortBytes (n >>> 16).toUInt16 ++ shortBytes n.toUInt16 := by
  simp only [wordBytes, shortBytes, List.cons_append, List.nil_append, List.cons.injEq, and_true]
  refine ⟨?_, ?_, ?_, ?_⟩ <;> (apply UInt8.toBitVec_inj.1; ext i hi; simp; try grind)

theorem wordBytes_join (a b : UInt16) :
    wordBytes (a.toUInt32 <<< 16 ||| b.toUInt32) = shortBytes a ++ shortBytes b := by
  rw [wordBytes_eq_append]
  congr 2
  · apply UInt16.toBitVec_inj.1
    ext i hi
    simp
    grind
  · apply UInt16.toBitVec_inj.1
    ext i hi
    simp

theorem join_wordBytes (n : UInt32) :
    (n >>> 16).toUInt16.toUInt32 <<< 16 ||| n.toUInt16.toUInt32 = n := by
  apply UInt32.toBitVec_inj.1
  ext i hi
  simp [-UInt32.toUInt32_toUInt16]
  grind

@[simp] theorem length_wordBytes (n : UInt32) : (wordBytes n).length = 4 := rfl

@[simp] theorem length_shortBytes (n : UInt16) : (shortBytes n).length = 2 := rfl

/-! ### Reading numbers -/

theorem byteAt_add (code : Array UInt8) (pos i : Nat) :
    byteAt code (pos + i) = ((code.toList.drop pos)[i]?).getD 0 := by
  simp [byteAt, Array.getD_eq_getD_getElem?, List.getElem?_drop]

theorem drop_eq_cons (h : pos < code.size) :
    code.toList.drop pos = byteAt code pos :: code.toList.drop (pos + 1) := by
  rw [List.drop_eq_getElem_cons (by simpa using h)]
  simp [byteAt, h]

theorem drop_of_getElem? {b : UInt8} (h : code[pos]? = some b) :
    code.toList.drop pos = b :: code.toList.drop (pos + 1) := by
  obtain ⟨hlt, rfl⟩ := Array.getElem?_eq_some_iff.1 h
  simpa [byteAt, hlt] using drop_eq_cons hlt

theorem length_le_of_drop (h : code.toList.drop pos = bytes ++ rest)
    (hne : bytes ≠ []) : pos + bytes.length ≤ code.size := by
  have := congrArg List.length h
  have hpos := List.length_pos_iff.2 hne
  simp at this
  omega

/-- What stands behind the bytes of an instruction. -/
theorem drop_add_of_drop (h : code.toList.drop pos = bytes ++ rest) :
    code.toList.drop (pos + bytes.length) = rest := by
  rw [← List.drop_drop, h, List.drop_left]

theorem drop_succ_of_drop {b : UInt8} (h : code.toList.drop pos = b :: rest) :
    code.toList.drop (pos + 1) = rest :=
  drop_add_of_drop (show code.toList.drop pos = [b] ++ rest from h)

theorem shortAt_of_drop {n : UInt16}
    (h : code.toList.drop pos = shortBytes n ++ rest) : shortAt code pos = n := by
  have h0 := byteAt_add code pos 0
  have h1 := byteAt_add code pos 1
  simp only [h, shortBytes, List.cons_append, List.nil_append, Nat.add_zero, List.getElem?_cons_zero,
    List.getElem?_cons_succ, Option.getD_some] at h0 h1
  rw [shortAt, h0, h1, join_shortBytes]

theorem drop_eq_shortBytes (h : pos + 2 ≤ code.size) :
    code.toList.drop pos = shortBytes (shortAt code pos) ++ code.toList.drop (pos + 2) := by
  rw [shortAt, shortBytes_join, drop_eq_cons (by omega), drop_eq_cons (show pos + 1 < code.size by omega)]
  rfl

theorem word?_of_drop
    (h : code.toList.drop pos = wordBytes w.toUInt32 ++ rest) : word? code pos = some w := by
  rw [wordBytes_eq_append, List.append_assoc] at h
  have hsize := length_le_of_drop h (by simp [shortBytes])
  have hlow := drop_add_of_drop h
  have hsize' := length_le_of_drop hlow (by simp [shortBytes])
  simp only [length_shortBytes] at hlow hsize hsize'
  rw [word?, if_pos (by omega), shortAt_of_drop h, shortAt_of_drop hlow, join_wordBytes]
  rfl

theorem drop_eq_wordBytes (h : pos + 4 ≤ code.size) :
    code.toList.drop pos = wordBytes (wordAt code pos).toUInt32 ++ code.toList.drop (pos + 4) := by
  have hword : (wordAt code pos).toUInt32 =
      (shortAt code pos).toUInt32 <<< 16 ||| (shortAt code (pos + 2)).toUInt32 := by
    rw [wordAt, word?, if_pos h]
    rfl
  rw [hword, wordBytes_join, drop_eq_shortBytes (by omega), 
    drop_eq_shortBytes (show pos + 2 + 2 ≤ code.size by omega), List.append_assoc]

/-- The bytes of a table of words. -/
def tableBytes (words : List Int32) : List UInt8 := words.flatMap fun w => wordBytes w.toUInt32

@[simp] theorem tableBytes_cons (w : Int32) (words : List Int32) :
    tableBytes (w :: words) = wordBytes w.toUInt32 ++ tableBytes words := rfl

@[simp] theorem length_tableBytes (words : List Int32) :
    (tableBytes words).length = 4 * words.length := by
  induction words with
  | nil => rfl
  | cons w words ih => simp [ih]; omega

theorem wordAt_of_drop {i : Nat}
    (h : code.toList.drop pos = tableBytes words ++ rest) (hw : words[i]? = some w) :
    word? code (pos + 4 * i) = some w := by
  induction words generalizing pos i with
  | nil => cases hw
  | cons v words ih =>
    rw [tableBytes_cons, List.append_assoc] at h
    cases i with
    | zero =>
      obtain rfl : v = w := by simpa using hw
      exact word?_of_drop h
    | succ i =>
      have := ih (drop_add_of_drop h) (by simpa using hw)
      rw [length_wordBytes] at this
      rw [← this]
      congr 1
      omega

/-- Whatever stands in code can be read as words. -/
theorem drop_eq_tableBytes (k : Nat) (h : pos + 4 * k ≤ code.size) :
    code.toList.drop pos = tableBytes ((List.range k).map fun i => wordAt code (pos + 4 * i)) ++
      code.toList.drop (pos + 4 * k) := by
  induction k generalizing pos with
  | zero => simp [tableBytes]
  | succ k ih =>
    rw [List.range_succ_eq_map, List.map_cons, tableBytes_cons, List.append_assoc, List.map_map]
    have hrest := ih (show pos + 4 + 4 * k ≤ code.size by omega)
    rw [show pos + 4 + 4 * k = pos + 4 * (k + 1) by omega] at hrest
    have hmap : (List.range k).map ((fun i => wordAt code (pos + 4 * i)) ∘ Nat.succ) =
        (List.range k).map fun i => wordAt code (pos + 4 + 4 * i) :=
      List.map_congr_left fun i _ => congrArg (wordAt code) (by simp only [Nat.succ_eq_add_one]; omega)
    rw [hmap, ← hrest]
    exact drop_eq_wordBytes (by omega)

/-! ### Instructions -/

/-- A branch, jump or call with a two-byte distance. -/
def Form.isNear : Form → Bool
  | .branch .. | .branchNull _ | .jump false | .call false => true
  | _ => false

/-- A jump or call with a four-byte distance. -/
def Form.isFar : Form → Bool
  | .jump true | .call true => true
  | _ => false

/-- An instruction whose operands name no other place in the code. -/
def Form.isPlain (form : Form) : Bool :=
  !form.isNear && !form.isFar && form != .tableSwitch && form != .lookupSwitch && form != .wide

/-- The bytes of one whole instruction that starts at `bci`, with its form and the distances to the
places where it may send control. -/
inductive Encodes (bci : Nat) : List UInt8 → Form → List Int → Prop
  | plain {op : UInt8} {info : OpcodeInfo} (operands : List UInt8) (hinfo : opcodeInfo? op = some info)
      (hform : info.form.isPlain = true) (hlength : operands.length + 1 = info.length) :
      Encodes bci (op :: operands) info.form []
  | near {op : UInt8} {form : Form} (offset : Int16) (hop : form? op = some form)
      (hform : form.isNear = true) :
      Encodes bci (op :: shortBytes offset.toUInt16) form [offset.toInt]
  | far {op : UInt8} {form : Form} (offset : Int32) (hop : form? op = some form)
      (hform : form.isFar = true) :
      Encodes bci (op :: wordBytes offset.toUInt32) form [offset.toInt]
  | tableSwitch {op : UInt8} (padding : List UInt8) (default low high : Int32) (offsets : List Int32)
      (hop : form? op = some .tableSwitch) (haligned : padding.length = 3 - bci % 4)
      (hlength : low.toInt + offsets.length = high.toInt + 1) (hle : low.toInt ≤ high.toInt) :
      Encodes bci (op :: (padding ++ tableBytes (default :: low :: high :: offsets))) .tableSwitch
        ((default :: offsets).map (·.toInt))
  | lookupSwitch {op : UInt8} (padding : List UInt8) (default count : Int32)
      (pairs : List (Int32 × Int32)) (hop : form? op = some .lookupSwitch)
      (haligned : padding.length = 3 - bci % 4) (hcount : count.toInt = pairs.length) :
      Encodes bci (op :: (padding ++ tableBytes (default :: count :: pairs.flatMap fun p => [p.1, p.2])))
        .lookupSwitch ((default :: pairs.map (·.2)).map (·.toInt))
  | wide {modifier op : UInt8} {form : Form} (operands : List UInt8)
      (hmodifier : form? modifier = some .wide) (hop : form? op = some form)
      (hform : form.isWidenable = true)
      (hlength : operands.length = if form = .increment then 4 else 2) :
      Encodes bci (modifier :: op :: operands) form []

theorem Encodes.ne_nil {form : Form} {offsets : List Int}
    (h : Encodes bci bytes form offsets) : bytes ≠ [] := by
  cases h <;> simp

/-- The cursor at `bci` reads an instruction of a given length, form and reach. -/
structure Reads (code : Array UInt8) (bci length : Nat) (form : Form) (offsets : List Int) : Prop where
  length : length? code bci = some length
  form : (Cursor.seek code bci).form? = some form
  targets : (Cursor.seek code bci).targets = offsets.map ((bci : Int) + ·)

/-- The lengths of branches, jumps and calls. -/
theorem opcodeTable_length_of_near : ∀ info ∈ opcodeTable.toList,
    (info.form.isNear → info.length = 3) ∧ (info.form.isFar → info.length = 5) := by
  decide +kernel

theorem length_of_near {op : UInt8} {info : OpcodeInfo} (h : opcodeInfo? op = some info) :
    (info.form.isNear → info.length = 3) ∧ (info.form.isFar → info.length = 5) :=
  opcodeTable_length_of_near info (Array.mem_toList_iff.2 (Array.mem_of_getElem? h))

theorem getElem?_of_drop {b : UInt8} (h : code.toList.drop bci = b :: rest) :
    code[bci]? = some b := by
  have : (code.toList.drop bci)[0]? = some b := by rw [h]; rfl
  simpa using this

section

open Cursor

variable {op : UInt8} {form : Form} {info : OpcodeInfo} {c : Cursor}

/-- What a cursor reads at an instruction that is not widened. -/
theorem seek_of_form? (hop : code[bci]? = some op) (hform : form? op = some form)
    (hwide : form ≠ .wide) :
    (seek code bci).form? = some form ∧ (seek code bci).switch? = SwitchTable.at? code bci := by
  have hno : form? op ≠ some .wide := by simpa [hform] using hwide
  have hopcode : (seek code bci).opcode = some op := by simp [seek, hop, hno]
  exact ⟨by rw [Cursor.form?, hopcode, Option.bind_some, hform], rfl⟩

theorem switchTable_at? (hop : code[bci]? = some op) (hform : form? op = some form) :
    SwitchTable.at? code bci =
      if form = .tableSwitch then some ⟨code, bci, true⟩
      else if form = .lookupSwitch then some ⟨code, bci, false⟩ else none := by
  unfold SwitchTable.at?
  simp only [hop, hform, Option.bind_eq_bind, Option.bind_some]
  split <;> simp_all

theorem targets_eq_nil (hform : c.form? = some form) (hnear : form.isNear = false)
    (hfar : form.isFar = false) (hswitch : c.switch? = none) : c.targets = [] := by
  unfold Cursor.targets
  rw [hform, hswitch]
  cases form <;> simp_all [Form.isNear, Form.isFar]
  all_goals rename_i far; cases far <;> simp_all

theorem targets_eq_singleton (hform : c.form? = some form)
    (hjumps : form.isNear ∨ form.isFar) : c.targets = [c.target] := by
  unfold Cursor.targets
  rw [hform]
  cases form <;> simp_all [Form.isNear, Form.isFar]

/-! ### Reading back -/

variable {bytes rest : List UInt8} {offsets : List Int} {padding operands : List UInt8} {modifier : UInt8}
  {default count high : Int32} {k : Nat}

theorem reads_plain (hcode : code.toList.drop bci = op :: operands ++ rest)
    (hinfo : opcodeInfo? op = some info) (hform : info.form.isPlain)
    (hlength : operands.length + 1 = info.length) :
    Reads code bci (op :: operands).length info.form [] := by
  have hop := getElem?_of_drop hcode
  have hop' : form? op = some info.form := by rw [form?, hinfo, Option.map_some]
  have hsize := length_le_of_drop hcode (by simp)
  simp only [Form.isPlain, Bool.and_eq_true, Bool.not_eq_true', bne_iff_ne] at hform
  obtain ⟨⟨⟨⟨hnear, hfar⟩, htable⟩, hlookup⟩, hwide⟩ := hform
  obtain ⟨hseek, hswitch⟩ := seek_of_form? hop hop' hwide
  refine ⟨?_, hseek, targets_eq_nil hseek hnear hfar ?_⟩
  · rw [List.length_cons, hlength] at hsize ⊢
    exact length?_of_measures hop (.fixed hinfo htable hlookup hwide) hsize
  · rw [hswitch, switchTable_at? hop hop', if_neg htable, if_neg hlookup]

theorem target_eq (hform : c.form? = some form) :
    c.target = if form.isFar then c.farTarget else c.bci + c.signedShort.toInt := by
  unfold Cursor.target
  rw [hform]
  cases form <;> try rfl
  all_goals rename_i far; cases far <;> rfl

theorem not_isFar_of_isNear (h : form.isNear) : form.isFar = false := by
  cases form <;> simp_all [Form.isNear, Form.isFar]
  all_goals rename_i far; cases far <;> simp_all

/-- An instruction that sends control to one other place. -/
theorem reads_jump {d : Int} (hop : code[bci]? = some op) (hinfo : opcodeInfo? op = some info)
    (hjumps : info.form.isNear ∨ info.form.isFar) (hsize : bci + info.length ≤ code.size)
    (htarget : (seek code bci).form? = some info.form → (seek code bci).target = bci + d) :
    Reads code bci info.length info.form [d] := by
  have hne : info.form ≠ .tableSwitch ∧ info.form ≠ .lookupSwitch ∧ info.form ≠ .wide := by
    refine ⟨?_, ?_, ?_⟩ <;> (intro e; rw [e] at hjumps; rcases hjumps with h | h <;> cases h)
  obtain ⟨hseek, -⟩ := seek_of_form? hop (by rw [form?, hinfo, Option.map_some]) hne.2.2
  refine ⟨length?_of_measures hop (.fixed hinfo hne.1 hne.2.1 hne.2.2) hsize, hseek, ?_⟩
  rw [targets_eq_singleton hseek hjumps, htarget hseek]
  rfl

theorem reads_near {offset : Int16}
    (hcode : code.toList.drop bci = op :: shortBytes offset.toUInt16 ++ rest)
    (hop : form? op = some form) (hform : form.isNear) : Reads code bci 3 form [offset.toInt] := by
  obtain ⟨info, hinfo, rfl⟩ := form?_eq_some_iff.1 hop
  have hlength := (length_of_near hinfo).1 hform
  have hsize := length_le_of_drop hcode (by simp)
  have hshort : shortAt code (bci + 1) = offset.toUInt16 :=
    shortAt_of_drop (drop_succ_of_drop hcode)
  have hsigned : (seek code bci).signedShort = offset.toInt32 := by
    show (shortAt code (bci + 1)).toInt16.toInt32 = _
    rw [hshort]
    rfl
  have hreads := reads_jump (d := offset.toInt) (getElem?_of_drop hcode) hinfo (.inl hform)
    (by simpa [hlength] using hsize) fun hseek => by
      rw [target_eq hseek, if_neg (by simp [not_isFar_of_isNear hform]), hsigned, Int16.toInt_toInt32]
      rfl
  rwa [hlength] at hreads

theorem reads_far {offset : Int32}
    (hcode : code.toList.drop bci = op :: wordBytes offset.toUInt32 ++ rest)
    (hop : form? op = some form) (hform : form.isFar) : Reads code bci 5 form [offset.toInt] := by
  obtain ⟨info, hinfo, rfl⟩ := form?_eq_some_iff.1 hop
  have hlength := (length_of_near hinfo).2 hform
  have hsize := length_le_of_drop hcode (by simp)
  have hword : word? code (bci + 1) = some offset :=
    word?_of_drop (drop_succ_of_drop hcode)
  have hreads := reads_jump (d := offset.toInt) (getElem?_of_drop hcode) hinfo (.inr hform)
    (by simpa [hlength] using hsize) fun hseek => by
      rw [target_eq hseek, if_pos hform]
      show (bci : Int) + (wordAt code (bci + 1)).toInt = _
      rw [wordAt, hword, Option.getD_some]
  rwa [hlength] at hreads

/-- The words of a switch. -/
theorem word_of_drop {i : Nat} (hcode : code.toList.drop bci = op :: (padding ++ tableBytes words) ++ rest)
    (haligned : padding.length = 3 - bci % 4) (hw : words[i]? = some w) :
    word? code (switchOperands bci + 4 * i) = some w := by
  have htable : code.toList.drop (bci + (op :: padding).length) = tableBytes words ++ rest :=
    drop_add_of_drop (by simpa using hcode)
  rw [switchOperands_eq, ← haligned, ← wordAt_of_drop htable hw, List.length_cons, Nat.add_comm 1]

theorem map_range_length {α β : Type} {f : Nat → β} {g : α → β} {l : List α}
    (h : ∀ i a, l[i]? = some a → f i = g a) : (List.range l.length).map f = l.map g := by
  apply List.ext_getElem (by simp)
  intro i hi _
  have hi : i < l.length := by simpa using hi
  simpa using h i l[i] (by simp [hi])

/-- What a cursor reads at a switch, from its words. -/
theorem reads_switch (isTable : Bool) {α : Type} {table : List α} {distance : α → Int} {s : SwitchTable}
    (hcode : code.toList.drop bci = op :: (padding ++ tableBytes (default :: words)) ++ rest)
    (hop : form? op = some form) (haligned : padding.length = 3 - bci % 4)
    (hs : s = ⟨code, bci, isTable⟩) (hform : form = if isTable then .tableSwitch else .lookupSwitch)
    (hlength : length? code bci = some n) (hsize : s.size = table.length)
    (htarget : ∀ i a, table[i]? = some a → s.target i = bci + distance a) :
    Reads code bci n form (default.toInt :: table.map distance) := by
  have hget := getElem?_of_drop hcode
  obtain ⟨hseek, hswitch⟩ := seek_of_form? hget hop (by cases isTable <;> simp [hform])
  rw [switchTable_at? hget hop] at hswitch
  refine ⟨hlength, hseek, ?_⟩
  have hdefault : s.default = bci + default.toInt := by
    subst hs
    show (bci : Int) + (wordAt code (switchOperands bci + 4 * 0)).toInt = _
    rw [wordAt, word_of_drop hcode haligned rfl, Option.getD_some]
  have htargets : (seek code bci).targets = s.default :: (List.range table.length).map s.target := by
    unfold Cursor.targets
    cases isTable <;> simp [hseek, hswitch, hform, ← hs, SwitchTable.cases, SwitchTable.take, hsize]
  rw [htargets, hdefault, map_range_length htarget, List.map_cons, List.map_map]
  rfl

theorem reads_tableSwitch {low : Int32} {table : List Int32}
    (hcode : code.toList.drop bci = op :: (padding ++ tableBytes (default :: low :: high :: table)) ++ rest)
    (hop : form? op = some .tableSwitch) (haligned : padding.length = 3 - bci % 4)
    (hlength : low.toInt + table.length = high.toInt + 1) (hle : low.toInt ≤ high.toInt) :
    Reads code bci (op :: (padding ++ tableBytes (default :: low :: high :: table))).length .tableSwitch
      ((default :: table).map (·.toInt)) := by
  have hsize := length_le_of_drop hcode (by simp)
  obtain ⟨info, hinfo, hform⟩ := form?_eq_some_iff.1 hop
  have hword {i : Nat} {w : Int32} := word_of_drop (i := i) (w := w) hcode haligned
  have hlow := hword (i := 1) rfl
  have hhigh := hword (i := 2) rfl
  have hcount : (high.toInt - low.toInt + 1).toNat = table.length := by omega
  refine reads_switch true hcode hop haligned rfl rfl ?_ ?_ fun i w hw => ?_
  · have hmeasures := Measures.tableSwitch hop hlow hhigh hle
    rw [hcount, switchOperands_eq] at hmeasures
    convert length?_of_measures (getElem?_of_drop hcode) hmeasures ?_ using 2 <;> simp at hsize ⊢ <;> omega
  · show ((wordAt code (switchOperands bci + 4 * 2)).toInt -
      (wordAt code (switchOperands bci + 4 * 1)).toInt + 1).toNat = _
    simp only [wordAt, hlow, hhigh, Option.getD_some, hcount]
  · show (bci : Int) + (wordAt code (switchOperands bci + (12 + 4 * i))).toInt = _
    rw [show 12 + 4 * i = 4 * (i + 3) by omega, wordAt, hword (i := i + 3) (by simpa using hw),
      Option.getD_some]

theorem getElem?_flatMap_pair (pairs : List (Int32 × Int32)) (i : Nat) :
    (pairs.flatMap fun p => [p.1, p.2])[2 * i + 1]? = (pairs[i]?).map (·.2) := by
  induction pairs generalizing i with
  | nil => simp
  | cons p pairs ih =>
    cases i with
    | zero => simp
    | succ i => simpa [Nat.mul_add] using ih i

theorem length_flatMap_pair (pairs : List (Int32 × Int32)) :
    (pairs.flatMap fun p => [p.1, p.2]).length = 2 * pairs.length := by
  induction pairs with
  | nil => rfl
  | cons p pairs ih => simp only [List.flatMap_cons, List.length_append, List.length_cons, List.length_nil, ih]; omega

theorem reads_lookupSwitch {pairs : List (Int32 × Int32)} (hcode : code.toList.drop bci =
      op :: (padding ++ tableBytes (default :: count :: pairs.flatMap fun p => [p.1, p.2])) ++ rest)
    (hop : form? op = some .lookupSwitch) (haligned : padding.length = 3 - bci % 4)
    (hcount : count.toInt = pairs.length) :
    Reads code bci
      (op :: (padding ++ tableBytes (default :: count :: pairs.flatMap fun p => [p.1, p.2]))).length
      .lookupSwitch ((default :: pairs.map (·.2)).map (·.toInt)) := by
  have hsize := length_le_of_drop hcode (by simp)
  obtain ⟨info, hinfo, hform⟩ := form?_eq_some_iff.1 hop
  have hword {i : Nat} {w : Int32} := word_of_drop (i := i) (w := w) hcode haligned
  have hpairs := hword (i := 1) rfl
  rw [List.map_cons, List.map_map]
  refine reads_switch false hcode hop haligned rfl rfl ?_ ?_ fun i p hp => ?_
  · have hmeasures := Measures.lookupSwitch hop hpairs (by omega)
    rw [hcount, switchOperands_eq] at hmeasures
    convert length?_of_measures (getElem?_of_drop hcode) hmeasures ?_ using 2 <;>
      simp at hsize ⊢ <;> omega
  · show (wordAt code (switchOperands bci + 4 * 1)).toInt.toNat = _
    rw [wordAt, hpairs, Option.getD_some, hcount, Int.toNat_natCast]
  · show (bci : Int) + (wordAt code (switchOperands bci + (12 + 8 * i))).toInt = _
    rw [show 12 + 8 * i = 4 * (2 * i + 1 + 2) by omega, wordAt,
      hword (i := 2 * i + 1 + 2) (w := p.2) (by simpa [getElem?_flatMap_pair] using ⟨p.1, hp⟩)]
    rfl

theorem reads_wide (hcode : code.toList.drop bci = modifier :: op :: operands ++ rest)
    (hmodifier : form? modifier = some .wide) (hop : form? op = some form)
    (hform : form.isWidenable) (hlength : operands.length = if form = .increment then 4 else 2) :
    Reads code bci (modifier :: op :: operands).length form [] := by
  have hget := getElem?_of_drop hcode
  have hget' : code[bci + 1]? = some op :=
    getElem?_of_drop (drop_succ_of_drop hcode)
  have hsize := length_le_of_drop hcode (by simp)
  obtain ⟨info, hinfo, hinfo'⟩ := form?_eq_some_iff.1 hmodifier
  have hseek : (seek code bci).form? = some form := by
    have hopcode : (seek code bci).opcode = some op := by simp [seek, hget, hmodifier, hget']
    rw [Cursor.form?, hopcode, Option.bind_some, hop]
  refine ⟨?_, hseek, targets_eq_nil hseek ?_ ?_ ?_⟩
  · convert length?_of_measures hget (.wide hmodifier hget' hop hform) ?_ using 2 <;>
      simp only [List.length_cons, hlength] at hsize ⊢ <;> split at hsize <;> simp_all
  · cases form <;> simp_all [Form.isWidenable, Form.isNear]
  · cases form <;> simp_all [Form.isWidenable, Form.isFar]
  · show SwitchTable.at? code bci = none
    rw [switchTable_at? hget hmodifier]
    rfl

/-- A cursor reads back what the bytes of an instruction encode. -/
theorem Encodes.reads (h : Encodes bci bytes form offsets) (hcode : code.toList.drop bci = bytes ++ rest) :
    Reads code bci bytes.length form offsets := by
  cases h with
  | plain operands hinfo hform hlength => exact reads_plain hcode hinfo hform hlength
  | near offset hop hform => exact reads_near hcode hop hform
  | far offset hop hform => exact reads_far hcode hop hform
  | tableSwitch padding default low high table hop haligned hlength hle =>
    exact reads_tableSwitch hcode hop haligned hlength hle
  | lookupSwitch padding default count pairs hop haligned hcount =>
    exact reads_lookupSwitch hcode hop haligned hcount
  | wide operands hmodifier hop hform hlength => exact reads_wide hcode hmodifier hop hform hlength

/-! ### Whatever can be read was encoded -/

/-- The next bytes, whatever they are. -/
theorem exists_bytes (h : pos + k ≤ code.size) :
    ∃ bytes : List UInt8, bytes.length = k ∧
      code.toList.drop pos = bytes ++ code.toList.drop (pos + k) := by
  refine ⟨(code.toList.drop pos).take k, ?_, ?_⟩
  · simp only [List.length_take, List.length_drop, Array.length_toList]
    omega
  · rw [← List.drop_drop, List.take_append_drop]

/-- A table of an even number of words is a table of pairs. -/
theorem exists_pairs (h : words.length = 2 * k) :
    ∃ pairs : List (Int32 × Int32), pairs.length = k ∧ words = pairs.flatMap fun p => [p.1, p.2] := by
  induction k generalizing words with
  | zero => exact ⟨[], rfl, List.length_eq_zero_iff.1 h⟩
  | succ k ih =>
    obtain ⟨key, _, rfl, h1⟩ := List.length_eq_succ_iff.1 (show words.length = 2 * k + 1 + 1 by omega)
    obtain ⟨offset, words, rfl, h2⟩ := List.length_eq_succ_iff.1 h1
    obtain ⟨pairs, hpairs, rfl⟩ := ih h2
    exact ⟨(key, offset) :: pairs, by rw [List.length_cons, hpairs], rfl⟩

/-- The opcode, the padding and the words of a switch. -/
theorem exists_switch_bytes (hop : code[bci]? = some op) (h : switchOperands bci + 4 * k ≤ code.size) :
    ∃ (padding : List UInt8) (words : List Int32), padding.length = 3 - bci % 4 ∧ words.length = k ∧
      code.toList.drop bci = op :: (padding ++ tableBytes words) ++
        code.toList.drop (switchOperands bci + 4 * k) := by
  have haligned := switchOperands_eq bci
  obtain ⟨padding, hlength, hpadding⟩ := exists_bytes
    (show bci + 1 + (3 - bci % 4) ≤ code.size by omega)
  refine ⟨padding, (List.range k).map fun i => wordAt code (switchOperands bci + 4 * i), hlength,
    by simp, ?_⟩
  rw [drop_of_getElem? hop, hpadding, show bci + 1 + (3 - bci % 4) = switchOperands bci by omega,
    drop_eq_tableBytes k h]
  simp

/-- The next `n` bytes are an instruction. -/
def Encoded (code : Array UInt8) (bci n : Nat) : Prop :=
  ∃ bytes form offsets, bytes.length = n ∧
    code.toList.drop bci = bytes ++ code.toList.drop (bci + n) ∧ Encodes bci bytes form offsets

theorem encoded_tableSwitch {low : Int32} (hop : code[bci]? = some op)
    (hform : form? op = some .tableSwitch) (hlow : word? code (switchOperands bci + 4) = some low)
    (hhigh : word? code (switchOperands bci + 8) = some high) (hle : low.toInt ≤ high.toInt)
    (hn : n = switchOperands bci - bci + 12 + 4 * (high.toInt - low.toInt + 1).toNat)
    (hsize : bci + n ≤ code.size) : Encoded code bci n := by
  have haligned := switchOperands_eq bci
  obtain ⟨padding, words, hpadding, hlength, hcode⟩ :=
    exists_switch_bytes (k := (high.toInt - low.toInt + 1).toNat + 1 + 1 + 1) hop (by omega)
  obtain ⟨default, _, rfl, h1⟩ := List.length_eq_succ_iff.1 hlength
  obtain ⟨low', _, rfl, h2⟩ := List.length_eq_succ_iff.1 h1
  obtain ⟨high', table, rfl, htable⟩ := List.length_eq_succ_iff.1 h2
  obtain rfl : low' = low := Option.mem_unique (word_of_drop (i := 1) hcode hpadding rfl) hlow
  obtain rfl : high' = high := Option.mem_unique (word_of_drop (i := 2) hcode hpadding rfl) hhigh
  refine ⟨_, _, _, ?_, ?_, .tableSwitch padding default low' high' table hform hpadding (by omega) (by omega)⟩
  · simp [hpadding, htable]
    omega
  · rwa [show bci + n = switchOperands bci + 4 * ((high'.toInt - low'.toInt + 1).toNat + 1 + 1 + 1) by omega]

theorem encoded_lookupSwitch (hop : code[bci]? = some op)
    (hform : form? op = some .lookupSwitch) (hcount : word? code (switchOperands bci + 4) = some count)
    (hle : 0 ≤ count.toInt) (hn : n = switchOperands bci - bci + 8 + 8 * count.toInt.toNat)
    (hsize : bci + n ≤ code.size) : Encoded code bci n := by
  have haligned := switchOperands_eq bci
  obtain ⟨padding, words, hpadding, hlength, hcode⟩ :=
    exists_switch_bytes (k := 2 * count.toInt.toNat + 1 + 1) hop (by omega)
  obtain ⟨default, _, rfl, h1⟩ := List.length_eq_succ_iff.1 hlength
  obtain ⟨count', words, rfl, hwords⟩ := List.length_eq_succ_iff.1 h1
  obtain rfl : count' = count :=
    Option.mem_unique (word_of_drop (i := 1) hcode hpadding rfl) hcount
  obtain ⟨pairs, hpairs, rfl⟩ := exists_pairs hwords
  refine ⟨_, _, _, ?_, ?_, .lookupSwitch padding default count' pairs hform hpadding ?_⟩
  · simp only [List.length_cons, List.length_append, length_tableBytes, hpadding, length_flatMap_pair, hpairs]
    omega
  · rwa [show bci + n = switchOperands bci + 4 * (2 * count'.toInt.toNat + 1 + 1) by omega]
  · omega

theorem encoded_wide (hmodifier : code[bci]? = some modifier)
    (hwide : form? modifier = some .wide) (hop : code[bci + 1]? = some op) (hform : form? op = some form)
    (hwidenable : form.isWidenable) (hn : n = if form = .increment then 6 else 4)
    (hsize : bci + n ≤ code.size) : Encoded code bci n := by
  have hge : 4 ≤ n := by split at hn <;> omega
  obtain ⟨operands, hlength, hoperands⟩ := exists_bytes
    (show bci + 2 + (n - 2) ≤ code.size by omega)
  refine ⟨_, _, _, ?_, ?_, .wide operands hwide hform hwidenable ?_⟩
  · simp only [List.length_cons, hlength]
    omega
  · rw [drop_of_getElem? hmodifier, drop_of_getElem? hop, hoperands,
      show bci + 2 + (n - 2) = bci + n by omega]
    rfl
  · rw [hlength, hn]
    split <;> rfl

/-- An instruction of a fixed length. -/
theorem encoded_fixed (hop : code[bci]? = some op) (hinfo : opcodeInfo? op = some info)
    (htable : info.form ≠ .tableSwitch) (hlookup : info.form ≠ .lookupSwitch)
    (hwide : info.form ≠ .wide) (hsize : bci + info.length ≤ code.size) :
    Encoded code bci info.length := by
  have hform : form? op = some info.form := by rw [form?, hinfo, Option.map_some]
  have hpos := (.fixed hinfo htable hlookup hwide : Measures code bci op _).pos
  by_cases hnear : info.form.isNear
  · have hlength := (length_of_near hinfo).1 hnear
    rw [hlength] at hsize ⊢
    refine ⟨_, _, _, rfl, ?_, .near (shortAt code (bci + 1)).toInt16 hform hnear⟩
    rw [drop_of_getElem? hop, drop_eq_shortBytes (by omega)]
    rfl
  by_cases hfar : info.form.isFar
  · have hlength := (length_of_near hinfo).2 hfar
    rw [hlength] at hsize ⊢
    refine ⟨_, _, _, rfl, ?_, .far (wordAt code (bci + 1)) hform hfar⟩
    rw [drop_of_getElem? hop, drop_eq_wordBytes (by omega)]
    rfl
  obtain ⟨operands, hlength, hoperands⟩ := exists_bytes
    (show bci + 1 + (info.length - 1) ≤ code.size by omega)
  refine ⟨_, _, _, ?_, ?_, .plain operands hinfo ?_ (by omega)⟩
  · rw [List.length_cons]
    omega
  · rw [drop_of_getElem? hop, hoperands, show bci + 1 + (info.length - 1) = bci + info.length by omega]
    rfl
  · simp [Form.isPlain, hnear, hfar, htable, hlookup, hwide]

/-- What has a length was encoded. -/
theorem encoded_of_length? (h : length? code bci = some n) : Encoded code bci n := by
  obtain ⟨⟨op, hop, hmeasures⟩, hsize⟩ := measures_of_length? h
  cases hmeasures with
  | tableSwitch hform hlow hhigh hle => exact encoded_tableSwitch hop hform hlow hhigh hle rfl hsize
  | lookupSwitch hform hcount hle => exact encoded_lookupSwitch hop hform hcount hle rfl hsize
  | wide hwide hop' hform hwidenable => exact encoded_wide hop hwide hop' hform hwidenable rfl hsize
  | fixed hinfo htable hlookup hwide => exact encoded_fixed hop hinfo htable hlookup hwide hsize

end

/-- A constant that needs more than two bytes is cut. -/
theorem emitInt_cut : ∃ code, (({} : Assembler).emitInt 100000).finish = .ok code ∧
    (Cursor.seek code 0).form? = some .pushShort ∧ (Cursor.seek code 0).signedShort = -31072 :=
  ⟨_, rfl, by decide +kernel, by decide +kernel⟩

end SeaOfNodes.Bytecode
