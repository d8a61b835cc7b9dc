import ScriptVm.Proofs.Assembly

/-!
# Decoding and emitting

Emitting and decoding undo each other.  An instruction that was emitted is decoded
with the immediate that its shape holds, and is followed by the next one at the
position to which the assembler had come.  An instruction that was decoded is
emitted as the bytes it was decoded from; a byte that stands for no opcode stands
for itself.

Instructions have many sizes, so one wrong size would put every later one in a wrong
place.  What carries the argument is that an instruction and its bytes tell each
other's length: `decode_emitted` in the one direction, `hasAt_bytes` in the other.

Main statements: `decode_emitted`, `hasAt_bytes`, `decodeAll_eq_error_iff` and
`decoding_inverse`.
-/

namespace ScriptVm

namespace Bytes

theorem span_eq_pow (width : Nat) : span width = 2 ^ (8 * width) := by
  induction width with
  | zero => rfl
  | succ width ih =>
    rw [span, ih, Nat.mul_succ, Nat.pow_add, Nat.mul_comm]

/-- Only the low bytes of a number are written. -/
theorem toLittle_congr {width m n : Nat} (h : m % span width = n % span width) :
    toLittle width m = toLittle width n := by
  have hwritten (k : Nat) : toLittle width (k % span width) = toLittle width k := by
    have hback := toLittle_ofLittle (toLittle width k)
    rwa [length_toLittle, ofLittle_toLittle] at hback
  rw [← hwritten m, h, hwritten]

theorem HasAt.of_getElem {bytes : Bytes} {cursor : Nat} (h : cursor < bytes.size) :
    bytes.HasAt cursor [bytes[cursor]] := by
  rw [iff_drop, List.drop_eq_getElem_cons (by simpa using h)]
  exact ⟨Nat.le_of_lt h, by simp⟩

end Bytes

/-- **The immediate that an opcode's shape holds**: the low bits of a number with their sign, three
bits of the opcode, or nothing. -/
def Op.held (op : Op) (imm : Int64) : Int64 :=
  match op.immediate with
  | .none | .onStack => 0
  | .embedded => Int64.ofNat op.embeddedImmediate
  | .byte => imm.toInt8.toInt64
  | .dword => imm.toInt32.toInt64
  | .qword => imm

namespace Instruction

variable {code : Bytes} {ip : Nat}

/-! ### What was emitted is decoded -/

/-- The sign of a large word does not matter for a smaller one. -/
theorem bmod_emod_of_dvd {m n : Nat} (h : n ∣ m) (a : Int) : a.bmod m % n = a % n := by
  have hdvd : (n : Int) ∣ m := by exact_mod_cast h
  calc a.bmod m % n = a.bmod m % m % n := (Int.emod_emod_of_dvd _ hdvd).symm
    _ = a % m % n := by rw [Int.bmod_emod]
    _ = a % n := Int.emod_emod_of_dvd _ hdvd

theorem span_dvd {width : Nat} (hwidth : width ≤ 8) : Bytes.span width ∣ 2 ^ 64 := by
  rw [Bytes.span_eq_pow]
  exact Nat.pow_dvd_pow 2 (by omega)

/-- A signed number and its bits have the same low bytes. -/
theorem toNat_emod_span {width : Nat} (hwidth : width ≤ 8) (imm : Int64) :
    (imm.toUInt64.toNat : Int) % Bytes.span width = imm.toInt % Bytes.span width := by
  have hword : imm.toInt = Int.bmod imm.toUInt64.toNat (2 ^ 64) := by
    rw [← Int64.toInt_toBitVec, BitVec.toInt_eq_toNat_bmod, Int64.toNat_toBitVec]
  rw [hword, bmod_emod_of_dvd (span_dvd hwidth)]

/-- A number is read back from its low bytes, with the sign of the highest of them. -/
theorem toInt_signed_toLittle {width : Nat} (hwidth : width ≤ 8) (imm : Int64) :
    (signed (Bytes.toLittle width imm.toUInt64.toNat)).toInt
      = imm.toInt.bmod (Bytes.span width) := by
  have hcut : ((imm.toUInt64.toNat % Bytes.span width : Nat) : Int).bmod (Bytes.span width)
      = imm.toInt.bmod (Bytes.span width) := by
    rw [Int.natCast_emod, toNat_emod_span hwidth, Int.emod_bmod]
  -- What the low bytes hold is small enough for a word.
  have hle : Bytes.span width ≤ 2 ^ 64 := Nat.le_of_dvd (by decide) (span_dvd hwidth)
  have hpos : 0 < Bytes.span width := Nat.pos_of_dvd_of_pos (span_dvd hwidth) (by decide)
  have hlow := Int.le_bmod (x := imm.toInt) hpos
  have hhigh := Int.bmod_lt (x := imm.toInt) hpos
  have hsize : Int64.size = 2 ^ 64 := rfl
  rw [signed, Bytes.ofLittle_toLittle, Bytes.length_toLittle, hcut, Int64.toInt_ofInt]
  exact Int.bmod_eq_of_le (by omega) (by omega)

/-- What is written of an immediate is read as what its shape holds. -/
theorem readImmediate_toLittle {op : Op} {imm : Int64} {start : Nat}
    (h : code.HasAt start (Bytes.toLittle op.immediate.size imm.toUInt64.toNat)) :
    readImmediate code op.byte start = .ok (op.held imm) := by
  have hslice := h.slice?
  rw [Bytes.length_toLittle] at hslice
  have hbyte : signed (Bytes.toLittle 1 imm.toUInt64.toNat) = imm.toInt8.toInt64 := by
    rw [← Int64.toInt_inj, toInt_signed_toLittle (by decide), Int8.toInt_toInt64,
      Int64.toInt_toInt8]
    rfl
  have hdword : signed (Bytes.toLittle 4 imm.toUInt64.toNat) = imm.toInt32.toInt64 := by
    rw [← Int64.toInt_inj, toInt_signed_toLittle (by decide), Int32.toInt_toInt64,
      Int64.toInt_toInt32]
    rfl
  have hqword : signed (Bytes.toLittle 8 imm.toUInt64.toNat) = imm := by
    rw [← Int64.toInt_inj, toInt_signed_toLittle (by decide)]
    exact Int.bmod_eq_of_le (Int64.le_toInt imm) (Int64.toInt_lt imm)
  unfold readImmediate Op.held
  rw [shapeOfByte_byte]
  cases hshape : op.immediate <;> rw [hshape] at hslice <;>
    simp_all [Shape.size, Op.embeddedImmediate]

/-- The instruction that stands at an address where it was emitted. -/
def emitted (ip : Nat) (op : Op) (imm : Int64) : Instruction where
  byte := op.byte
  op := some op
  imm := op.held imm
  onStack := op.immediate = .onStack
  next := ip + (emit op imm).length

/-- **What was emitted is decoded.** -/
theorem decode_emitted {op : Op} {imm : Int64} (h : code.HasAt ip (emit op imm)) :
    decode code ip = .ok (emitted ip op imm) := by
  obtain ⟨hbyte, himm⟩ := Bytes.HasAt.append (p := [op.byte])
    (q := Bytes.toLittle op.immediate.size imm.toUInt64.toNat) h
  have hinside : ip < code.size := hbyte.le_size
  have hcode : code[ip] = op.byte := by
    obtain ⟨before, after, hlist, rfl⟩ := hbyte
    simp [← Array.getElem_toList, hlist]
  have hread : readImmediate code op.byte (ip + 1) = .ok (op.held imm) :=
    readImmediate_toLittle himm
  rw [decode, dif_pos hinside]
  simp only [hcode, hread, shapeOfByte_byte, Op.ofByte?_byte, emitted, length_emit, Nat.add_assoc]

/-! ### What was decoded is emitted -/

/-- **The bytes of an instruction**; a byte that stands for no opcode stands for itself. -/
def bytes (ins : Instruction) : List UInt8 :=
  match ins.op with
  | some op => emit op ins.imm
  | none => [ins.byte]

/-- A word of up to eight bytes is written as it was read. -/
theorem toLittle_signed {word : List UInt8} (h : word.length ≤ 8) :
    Bytes.toLittle word.length (signed word).toUInt64.toNat = word := by
  refine Eq.trans (Bytes.toLittle_congr ?_) (Bytes.toLittle_ofLittle word)
  have hsame : ((signed word).toUInt64.toNat : Int) % Bytes.span word.length
      = (Bytes.ofLittle word : Int) % Bytes.span word.length := by
    rw [toNat_emod_span h, signed, Int64.toInt_ofInt,
      bmod_emod_of_dvd (m := Int64.size) (span_dvd h), Int.bmod_emod]
  exact_mod_cast hsame

/-- The bytes of an immediate are written as they were read. -/
theorem hasAt_immediate {byte : UInt8} {op : Op} {imm : Int64} {start : Nat}
    (hop : Op.ofByte? byte = some op) (h : readImmediate code byte start = .ok imm)
    (hstart : start ≤ code.size) :
    code.HasAt start (Bytes.toLittle op.immediate.size imm.toUInt64.toNat) := by
  have hnone : code.HasAt start [] :=
    ⟨code.toList.take start, code.toList.drop start, by simp, by simp [hstart]⟩
  have hword {width : Nat} {word : Bytes} (hwidth : width ≤ 8)
      (hslice : code.slice? start width = some word) :
      code.HasAt start (Bytes.toLittle width (signed word.toList).toUInt64.toNat) := by
    have hlength : word.toList.length = width := Bytes.size_of_slice? hslice
    rw [← hlength, toLittle_signed (hlength ▸ hwidth)]
    exact .of_slice? hslice
  unfold readImmediate shapeOfByte at h
  rw [hop] at h
  dsimp only at h
  generalize op.immediate = shape at h ⊢
  cases shape with
  | none | onStack | embedded => exact hnone
  | byte | dword | qword =>
    dsimp only at h
    split at h
    · next word hslice =>
      cases h
      exact hword (by decide) hslice
    · cases h

/-- **What was decoded stands in the code**, up to the next instruction. -/
theorem hasAt_bytes {ins : Instruction} (hinside : ip < code.size)
    (h : decode code ip = .ok ins) :
    code.HasAt ip ins.bytes ∧ ins.next = ip + ins.bytes.length := by
  rw [decode, dif_pos hinside] at h
  cases hread : readImmediate code code[ip] (ip + 1) with
  | error f =>
    rw [hread] at h
    cases h
  | ok imm =>
    rw [hread] at h
    cases h
    have hbyte : code.HasAt ip [code[ip]] := .of_getElem hinside
    cases hop : Op.ofByte? code[ip] with
    | none =>
      simp only [bytes, hop, shapeOfByte, Shape.size]
      exact ⟨hbyte, rfl⟩
    | some op =>
      have himm := hasAt_immediate hop hread hinside
      have hlength := length_emit op imm
      simp only [bytes, hop, shapeOfByte]
      refine ⟨?_, by omega⟩
      rw [emit, Op.byte_of_ofByte? hop]
      exact hbyte.concat himm

/-! ### Whole bodies -/

theorem decodeFrom_of_decode {ins : Instruction} (hinside : ip < code.size)
    (h : decode code ip = .ok ins) :
    decodeFrom code ip = (decodeFrom code ins.next).map (ins :: ·) := by
  rw [decodeFrom, dif_pos hinside]
  split
  · next f hf => cases h.symm.trans hf
  · next ins' hins' =>
    cases h.symm.trans hins'
    cases decodeFrom code ins.next <;> rfl

theorem decodeFrom_of_error {f : Fault} (hinside : ip < code.size)
    (h : decode code ip = .error f) : decodeFrom code ip = .error f := by
  rw [decodeFrom, dif_pos hinside]
  split
  · next f' hf =>
    cases h.symm.trans hf
    rfl
  · next ins hins => cases h.symm.trans hins

theorem decodeFrom_end (h : ¬ ip < code.size) : decodeFrom code ip = .ok [] := by
  rw [decodeFrom, dif_neg h]

/-- **The last instruction is cut off**: its immediate would end behind the code. -/
def CutOff (code : Bytes) : Prop :=
  ∃ ip, ∃ h : ip < code.size, Boundary code ip ∧
    code.size < ip + 1 + (shapeOfByte code[ip]).size

/-- Inside the code there is one thing that can go wrong. -/
theorem decode_eq_error_iff {f : Fault} (hinside : ip < code.size) :
    decode code ip = .error f ↔
      f = .unexpectedEndOfCode ∧ code.size < ip + 1 + (shapeOfByte code[ip]).size := by
  have hread : readImmediate code code[ip] (ip + 1) = .error f ↔
      f = .unexpectedEndOfCode ∧ code.size < ip + 1 + (shapeOfByte code[ip]).size := by
    unfold readImmediate
    cases shapeOfByte code[ip] <;> simp only [Bytes.slice?, Shape.size] <;> grind
  rw [← hread, decode, dif_pos hinside]
  cases readImmediate code code[ip] (ip + 1) <;> simp

/-- Decoding comes to every boundary. -/
theorem decodeAll_of_boundary (hip : Boundary code ip) :
    ∃ done, decodeAll code = (decodeFrom code ip).map (done ++ ·) := by
  induction hip with
  | start => exact ⟨[], by rw [decodeAll]; cases decodeFrom code 0 <;> rfl⟩
  | @next ip ins _ inside decoded ih =>
    obtain ⟨done, hdone⟩ := ih
    refine ⟨done ++ [ins], ?_⟩
    rw [hdone, decodeFrom_of_decode inside decoded]
    cases decodeFrom code ins.next with
    | error f => rfl
    | ok rest => simp [Except.map]

theorem cutOff_of_decodeFrom {f : Fault} (hip : Boundary code ip)
    (h : decodeFrom code ip = .error f) : f = .unexpectedEndOfCode ∧ CutOff code := by
  fun_induction decodeFrom code ip with
  | case1 ip inside f' hdecode =>
    cases h
    obtain ⟨hf, hcut⟩ := (decode_eq_error_iff inside).mp hdecode
    exact ⟨hf, ip, inside, hip, hcut⟩
  | case2 ip inside ins hdecode forward f' hrest ih =>
    cases h
    exact ih (hip.next inside hdecode) hrest
  | case3 ip inside ins hdecode forward rest hrest ih => cases h
  | case4 ip outside => cases h

/-- **When a body cannot be decoded.** -/
theorem decodeAll_eq_error_iff {f : Fault} :
    decodeAll code = .error f ↔ f = .unexpectedEndOfCode ∧ CutOff code := by
  refine ⟨cutOff_of_decodeFrom .start, ?_⟩
  rintro ⟨rfl, ip, hinside, hip, hcut⟩
  obtain ⟨done, hdone⟩ := decodeAll_of_boundary hip
  rw [hdone, decodeFrom_of_error hinside ((decode_eq_error_iff hinside).mpr ⟨rfl, hcut⟩)]
  rfl

/-- What is decoded from an address on stands there in its bytes. -/
theorem hasAt_of_decodeFrom {list : List Instruction} (hip : ip ≤ code.size)
    (h : decodeFrom code ip = .ok list) :
    code.HasAt ip (list.flatMap bytes) ∧ ip + (list.flatMap bytes).length = code.size := by
  fun_induction decodeFrom code ip generalizing list with
  | case1 ip inside f hdecode => cases h
  | case2 ip inside ins hdecode forward f hrest ih => cases h
  | case3 ip inside ins hdecode forward rest hrest ih =>
    cases h
    obtain ⟨hat, hnext⟩ := hasAt_bytes inside hdecode
    obtain ⟨hats, hend⟩ := ih (hnext ▸ hat.le_size) hrest
    rw [hnext] at hats hend
    rw [List.flatMap_cons, List.length_append, ← Nat.add_assoc]
    exact ⟨hat.concat hats, hend⟩
  | case4 ip outside =>
    cases h
    have hend : ip = code.size := Nat.le_antisymm hip (Nat.le_of_not_lt outside)
    refine ⟨⟨code.toList, [], ?_, ?_⟩, ?_⟩ <;> simp [hend]

end Instruction

namespace Draft

open Instruction

/-- Opcodes with their immediates, one after the other. -/
def emitAll (d : Draft) (items : List (Op × Int64)) : Draft :=
  items.foldl (fun d item => d.emit item.1 item.2) d

/-- The instructions that a draft gets when it is written on, each followed by the next one at the
position that the draft has come to. -/
def instructions (d : Draft) : List (Op × Int64) → List Instruction
  | [] => []
  | (op, imm) :: rest =>
    { byte := op.byte
      op := some op
      imm := op.held imm
      onStack := op.immediate = .onStack
      next := (d.emit op imm).position } :: (d.emit op imm).instructions rest

/-- A decoded instruction, written again; a byte that stands for no opcode as it is. -/
def rewrite (d : Draft) (ins : Instruction) : Draft :=
  match ins.op with
  | some op => d.emit op ins.imm
  | none => d.raw [ins.byte]

theorem code_emitAll (d : Draft) (items : List (Op × Int64)) :
    (d.emitAll items).code.toList = d.code.toList ++ encode items := by
  induction items generalizing d with
  | nil => simp [emitAll, encode]
  | cons item items ih =>
    refine (ih (d.emit item.1 item.2)).trans ?_
    simp [encode, emit, raw]

theorem code_rewrite (d : Draft) (list : List Instruction) :
    (list.foldl rewrite d).code.toList = d.code.toList ++ list.flatMap bytes := by
  induction list generalizing d with
  | nil => simp
  | cons ins list ih =>
    have hone : (d.rewrite ins).code.toList = d.code.toList ++ ins.bytes := by
      cases hop : ins.op <;> simp [rewrite, bytes, hop, emit, raw]
    rw [List.foldl_cons, ih, hone, List.flatMap_cons, List.append_assoc]

/-- A draft without open targets is finished. -/
theorem build_of_closed {d : Draft} (h : d.fixups = []) :
    d.build = .ok ⟨d.name, d.code, d.locals, d.declared⟩ := by
  rw [build, h, resolve]

theorem fixups_emitAll (d : Draft) (items : List (Op × Int64)) :
    (d.emitAll items).fixups = d.fixups := by
  induction items generalizing d with
  | nil => rfl
  | cons item items ih => exact ih (d.emit item.1 item.2)

theorem fixups_rewrite (d : Draft) (list : List Instruction) :
    (list.foldl rewrite d).fixups = d.fixups := by
  induction list generalizing d with
  | nil => rfl
  | cons ins list ih =>
    have hone : (d.rewrite ins).fixups = d.fixups := by
      cases hop : ins.op <;> simp [rewrite, hop, emit, raw]
    rw [List.foldl_cons, ih, hone]

/-- What was written behind a draft is decoded. -/
theorem decodeFrom_emitAll {code : Bytes} (d : Draft) {items : List (Op × Int64)}
    (h : code.toList = d.code.toList ++ encode items) :
    decodeFrom code d.position = .ok (d.instructions items) := by
  induction items generalizing d with
  | nil =>
    have hsize : code.size = d.position := by
      rw [← Array.length_toList, h]
      simp [encode, position]
    rw [decodeFrom_end (hsize ▸ Nat.lt_irrefl _), instructions]
  | cons item items ih =>
    obtain ⟨op, imm⟩ := item
    have hat : code.HasAt d.position (Instruction.emit op imm) :=
      ⟨d.code.toList, encode items, by simp [h, encode], by simp [position]⟩
    have hcode : code.toList = (d.emit op imm).code.toList ++ encode items := by
      simp [h, encode, emit, raw]
    have hnext : (emitted d.position op imm).next = (d.emit op imm).position := by
      have hlength := congrArg List.length (code_emitAll d [(op, imm)])
      simpa [emitted, position, encode, emitAll] using hlength.symm
    have hinside : d.position < code.size := by
      have hle := hat.le_size
      rw [length_emit] at hle
      omega
    rw [decodeFrom_of_decode hinside (decode_emitted hat), hnext, ih (d.emit op imm) hcode,
      instructions, ← hnext]
    rfl

/-- **Emitting and decoding undo each other.**  What was emitted is decoded, opcode by opcode, with
the immediates that the shapes hold and the positions that the assembler came to.  What was decoded
is emitted as the same bytes.  And a body cannot be decoded exactly if the immediate of its last
instruction is cut off. -/
theorem decoding_inverse :
    (∀ name items, ∃ p, ((Draft.new name).emitAll items).build = .ok p ∧
      decodeAll p.code = .ok ((Draft.new name).instructions items)) ∧
    (∀ name code list, decodeAll code = .ok list →
      ∃ p, (list.foldl rewrite (Draft.new name)).build = .ok p ∧ p.code = code) ∧
    ∀ code f, decodeAll code = .error f ↔ f = .unexpectedEndOfCode ∧ CutOff code := by
  refine ⟨fun name items => ?_, fun name code list h => ?_,
    fun code f => decodeAll_eq_error_iff⟩
  · have hbuild := build_of_closed (fixups_emitAll (Draft.new name) items)
    exact ⟨_, hbuild, decodeFrom_emitAll (Draft.new name) (code_emitAll _ items)⟩
  · have hbuild := build_of_closed (fixups_rewrite (Draft.new name) list)
    refine ⟨_, hbuild, ?_⟩
    obtain ⟨⟨before, after, hcode, hbefore⟩, hend⟩ := hasAt_of_decodeFrom (Nat.zero_le _) h
    have hafter : after.length = 0 := by
      have hlength := congrArg List.length hcode
      simp only [List.length_append, Array.length_toList] at hlength
      omega
    apply Array.toList_inj.mp
    rw [code_rewrite, hcode, List.length_eq_zero_iff.mp hbefore, List.length_eq_zero_iff.mp hafter]
    simp [Draft.new]

/-- Code with a short negative immediate, a byte that stands for no opcode, an immediate on the
stack and a long one. -/
theorem decoding_inverse_unknown_byte :
    let code : Bytes := #[0x36, 0x80, 0xff, 0x5d, 0x35, 0x00, 0x01, 0x00, 0x80]
    ∃ list p, decodeAll code = .ok list ∧
      list.map Instruction.op = [some (.loadInt (.wide .short)), none, some (.loadLocal .onStack),
        some (.loadInt (.wide .long))] ∧
      list.map Instruction.imm = [-128, 0, 0, -2147483392] ∧
      (list.foldl rewrite (Draft.new "odd")).build = .ok p ∧ p.code = code := by
  intro code
  have hdecodes : (decodeAll code).toOption.map (fun list => (list.map Instruction.op,
      list.map Instruction.imm)) = some ([some (.loadInt (.wide .short)), none,
        some (.loadLocal .onStack), some (.loadInt (.wide .long))], [-128, 0, 0, -2147483392]) := by
    decide +kernel
  cases hlist : decodeAll code with
  | error f =>
    rw [hlist] at hdecodes
    cases hdecodes
  | ok list =>
    rw [hlist] at hdecodes
    obtain ⟨p, hbuild, hcode⟩ := decoding_inverse.2.1 "odd" code list hlist
    obtain ⟨hops, himms⟩ := Prod.mk.inj (Option.some.inj hdecodes)
    exact ⟨list, p, rfl, hops, himms, hbuild, hcode⟩

end Draft

end ScriptVm
