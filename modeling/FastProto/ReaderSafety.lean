import FastProto.DecodeRecords
import FastProto.Lib.Loop

/-! # The reader does not panic

`Method` is a method of `Reader` with all the ways it can panic: `usize` additions that overflow,
slices out of bounds, a failing `unwrap`, a shift past the width. Each method refines the reader the
codec is modelled with, so it never panics, stays in its buffer, moves ahead on success and depends on
nothing but the bytes it passes. Every loop of the codec over a reader therefore ends. -/

namespace FastProto

open Lib Lib.Cursor

/-! ## Methods -/

/-- A method of `Reader`: the buffer and the position it starts at give its result and the position
it leaves; none is a panic. -/
abbrev Method (α : Type) : Type := ReaderT Bytes (ExceptT WireError (StateT Nat Option)) α

/-- `a + b` on `usize`, as `checked_add` has it. -/
def addUsize (a b : Nat) : Option Nat := if a + b < 2 ^ 64 then some (a + b) else none

/-- `buf.get(start..stop)`. -/
def getSlice (buf : Bytes) (start stop : Nat) : Option Bytes :=
  if start ≤ stop ∧ stop ≤ buf.length then some ((buf.drop start).take (stop - start)) else none

/-- `value << shift` on `u64`. -/
def shiftLeftU64 (value : UInt64) (shift : Nat) : Option UInt64 :=
  if shift < 64 then some (value <<< UInt64.ofNat shift) else none

namespace Method

/-- Use a value whose absence is a panic. -/
def unwrap {α : Type} (value : Option α) : Method α := fun _ pos => value.map fun a => (.ok a, pos)

/-- `self.pos += n`. -/
def advance (n : Nat) : Method Unit := fun _ pos => (addUsize pos n).map fun pos => (.ok (), pos)

/-- `self.buf.get(self.pos).ok_or(UnexpectedEof)`. -/
def peek : Method UInt8 := fun buf pos =>
  match buf[pos]? with
  | some b => some (.ok b, pos)
  | none => some (.error .unexpectedEof, pos)

/-- `next_byte`. -/
def nextByte : Method UInt8 := do
  let b ← peek
  advance 1
  pure b

/-- The loop of `read_varint`. -/
def readVarintLoop (result : UInt64) : List Nat → Method UInt64
  | [] => throw .varintOverflow
  | shift :: shifts => do
      let byte ← nextByte
      let group ← unwrap (shiftLeftU64 (byte &&& 0x7f).toUInt64 shift)
      let result := result ||| group
      if byte &&& 0x80 = 0 then pure result else readVarintLoop result shifts

/-- `read_varint`. -/
def readVarint : Method UInt64 := do
  let first ← peek
  if first &&& 0x80 = 0 then do
    advance 1
    pure first.toUInt64
  else do
    advance 1
    readVarintLoop (first &&& 0x7f).toUInt64 [7, 14, 21, 28, 35, 42, 49, 56, 63]

/-- `read_tag`. -/
def readTag : Method (UInt32 × WireType) := do
  let key ← readVarint
  match WireType.fromU64 (key &&& 0x7) with
  | none => throw (.invalidWireType (key &&& 0x7))
  | some wire =>
      let field := key >>> 3
      if field = 0 ∨ field > maxFieldNumber then throw (.invalidFieldNumber field)
      else pure (field.toUInt32, wire)

/-- `self.buf.get(self.pos..self.pos + n).ok_or(UnexpectedEof)?.try_into().unwrap()`, an array of
`n` bytes. -/
def peekArray (n : Nat) : Method Bytes := fun buf pos =>
  match addUsize pos n with
  | none => none
  | some stop =>
      match getSlice buf pos stop with
      | none => some (.error .unexpectedEof, pos)
      | some bytes => if bytes.length = n then some (.ok bytes, pos) else none

/-- `read_fixed32`. -/
def readFixed32 : Method UInt32 := do
  let bytes ← peekArray 4
  advance 4
  pure (UInt32.ofNat (fromLeBytes bytes))

/-- `read_fixed64`. -/
def readFixed64 : Method UInt64 := do
  let bytes ← peekArray 8
  advance 8
  pure (UInt64.ofNat (fromLeBytes bytes))

/-- `read_len_delimited` after its length: the slice up to `end`, which becomes the position. -/
def takeLen (len : Nat) : Method Bytes := fun buf pos =>
  match addUsize pos len with
  | none => some (.error .invalidLength, pos)
  | some stop =>
      if stop > buf.length then some (.error .invalidLength, pos)
      else (getSlice buf pos stop).map fun slice => (.ok slice, stop)

/-- `read_len_delimited`. -/
def readLenDelimited : Method Bytes := do
  let len ← readVarint
  takeLen len.toNat

/-- `skip`. -/
def skip : WireType → Method Unit
  | .varint => do let _ ← readVarint; pure ()
  | .i64 => do let _ ← readFixed64; pure ()
  | .i32 => do let _ ← readFixed32; pure ()
  | .len => do let _ ← readLenDelimited; pure ()

/-! ## Methods and the reader of the model -/

variable {α γ : Type}

/-- **A method does what a reader of the model does**, without a panic: on every slice Rust can have
and every position in it. -/
def Refines (f : Method α) (g : ReadM α) : Prop :=
  ∀ (buf : Bytes) (pos : Nat), buf.length ≤ isizeMax → pos ≤ buf.length →
    ∃ r pos', f buf pos = some (r, pos') ∧ pos' ≤ buf.length ∧
      g ⟨buf, pos⟩ = r.map fun a => (a, ⟨buf, pos'⟩)

theorem bind_run (f : Method α) (g : α → Method γ) (buf : Bytes) (pos : Nat) :
    (f >>= g) buf pos = f buf pos >>= fun r =>
      match r.1 with
      | .ok a => g a buf r.2
      | .error e => some (.error e, r.2) := by
  show StateT.bind (f buf) (ExceptT.bindCont fun a => g a buf) pos = _
  unfold StateT.bind ExceptT.bindCont
  refine congrArg _ (funext fun r => ?_)
  obtain ⟨r, pos'⟩ := r
  cases r <;> rfl

theorem Refines.pure (a : α) : Refines (pure a) (pure a) :=
  fun _ pos _ hpos => ⟨.ok a, pos, rfl, hpos, rfl⟩

theorem Refines.throw (e : WireError) : Refines (throw e : Method α) (throw e) :=
  fun _ pos _ hpos => ⟨.error e, pos, rfl, hpos, rfl⟩

theorem Refines.bind {f : Method α} {f' : ReadM α} {g : α → Method γ} {g' : α → ReadM γ}
    (hf : Refines f f') (hg : ∀ a, Refines (g a) (g' a)) : Refines (f >>= g) (f' >>= g') := by
  intro buf pos hbuf hpos
  obtain ⟨r, mid, hrun, hmid, hmodel⟩ := hf buf pos hbuf hpos
  rw [bind_run, hrun, bind_apply, hmodel]
  cases r with
  | error e => exact ⟨.error e, mid, rfl, hmid, rfl⟩
  | ok a => exact hg a buf mid hbuf hmid

theorem Refines.ite {p : Prop} [Decidable p] {f g : Method α} {f' g' : ReadM α}
    (hf : Refines f f') (hg : Refines g g') :
    Refines (if p then f else g) (if p then f' else g') := by
  split
  · exact hf
  · exact hg

/-- `next_byte` does not panic. -/
theorem refines_nextByte : Refines nextByte Reader.nextByte := by
  intro buf pos hbuf hpos
  have hmax : isizeMax = 2 ^ 63 - 1 := rfl
  unfold nextByte
  rw [bind_run, peek]
  cases hget : buf[pos]? with
  | none => exact ⟨.error .unexpectedEof, pos, rfl, hpos, by rw [Reader.nextByte, next, hget]; rfl⟩
  | some b =>
      have hlt := (List.getElem?_eq_some_iff.mp hget).1
      refine ⟨.ok b, pos + 1, ?_, hlt, by rw [Reader.nextByte, next, hget]; rfl⟩
      show (advance 1 >>= fun _ => Pure.pure b) buf pos = _
      rw [bind_run, advance, addUsize, if_pos (by omega)]
      rfl

/-- Peeking at a byte and stepping over it in either branch is reading it. -/
theorem peek_advance (p : UInt8 → Prop) [DecidablePred p] (f g : UInt8 → Method α) :
    (peek >>= fun b => if p b then advance 1 >>= fun _ => f b else advance 1 >>= fun _ => g b)
      = nextByte >>= fun b => if p b then f b else g b := by
  unfold nextByte
  simp only [bind_assoc, pure_bind]
  refine congrArg _ (funext fun b => ?_)
  split <;> rfl

/-- The loop of `read_varint` does not panic: no shift reaches the width. -/
theorem refines_readVarintLoop (shifts : List Nat) (h : ∀ shift ∈ shifts, shift < 64) :
    ∀ result, Refines (readVarintLoop result shifts) (Reader.readVarintLoop result shifts) := by
  induction shifts with
  | nil => exact fun result => Refines.throw _
  | cons shift shifts ih =>
      intro result
      have hshift : ∀ value : UInt64, unwrap (shiftLeftU64 value shift)
          = Pure.pure (value <<< UInt64.ofNat shift) := by
        intro value
        rw [shiftLeftU64, if_pos (h shift List.mem_cons_self)]
        rfl
      rw [Reader.readVarintLoop_cons, readVarintLoop]
      refine refines_nextByte.bind fun byte => ?_
      rw [hshift]
      exact Refines.ite (Refines.pure _) (ih (fun s hs => h s (List.mem_cons_of_mem _ hs)) _)

/-- `read_varint` does not panic. -/
theorem refines_readVarint : Refines readVarint Reader.readVarint := by
  unfold readVarint
  rw [peek_advance]
  refine refines_nextByte.bind fun first => ?_
  exact Refines.ite (Refines.pure _) (refines_readVarintLoop _ (by decide) _)

/-- `read_tag` does not panic. -/
theorem refines_readTag : Refines readTag Reader.readTag := by
  refine refines_readVarint.bind fun key => ?_
  cases WireType.fromU64 (key &&& 0x7) with
  | none => exact Refines.throw _
  | some wire => exact Refines.ite (Refines.throw _) (Refines.pure _)

/-- Reading an array of bytes does not panic. -/
theorem refines_array {n : Nat} (hn : n ≤ 8) (k : Bytes → α) :
    Refines (peekArray n >>= fun bytes => advance n >>= fun _ => Pure.pure (k bytes))
      (takeSlice .unexpectedEof n >>= fun bytes => Pure.pure (k bytes)) := by
  intro buf pos hbuf hpos
  have hmax : isizeMax = 2 ^ 63 - 1 := rfl
  have hadd : addUsize pos n = some (pos + n) := if_pos (by omega)
  rw [bind_run, peekArray, hadd, bind_apply, takeSlice]
  dsimp only
  by_cases hfits : pos + n ≤ buf.length
  · rw [getSlice, if_pos ⟨Nat.le_add_right pos n, hfits⟩, if_pos hfits, Nat.add_sub_cancel_left]
    have hlen : ((buf.drop pos).take n).length = n := by
      rw [List.length_take, List.length_drop]
      omega
    refine ⟨.ok (k ((buf.drop pos).take n)), pos + n, ?_, hfits, rfl⟩
    dsimp only
    rw [if_pos hlen]
    show (advance n >>= fun _ => Pure.pure (k ((buf.drop pos).take n))) buf pos = _
    rw [bind_run, advance, hadd]
    rfl
  · rw [getSlice, if_neg (fun h => hfits h.2), if_neg hfits]
    exact ⟨.error .unexpectedEof, pos, rfl, hpos, rfl⟩

/-- `read_fixed32` does not panic. -/
theorem refines_readFixed32 : Refines readFixed32 Reader.readFixed32 := refines_array (by omega) _

/-- `read_fixed64` does not panic. -/
theorem refines_readFixed64 : Refines readFixed64 Reader.readFixed64 := refines_array (by omega) _

/-- Taking a chunk does not panic, whatever its length claims. -/
theorem refines_takeLen (len : Nat) : Refines (takeLen len) (takeSlice .invalidLength len) := by
  intro buf pos hbuf hpos
  have hmax : isizeMax = 2 ^ 63 - 1 := rfl
  rw [takeLen, takeSlice]
  dsimp only
  by_cases hfits : pos + len ≤ buf.length
  · rw [addUsize, if_pos (by omega), if_pos hfits]
    dsimp only
    rw [if_neg (by omega), getSlice, if_pos ⟨Nat.le_add_right pos len, hfits⟩,
      Nat.add_sub_cancel_left]
    exact ⟨.ok _, pos + len, rfl, hfits, rfl⟩
  · rw [if_neg hfits]
    refine ⟨.error .invalidLength, pos, ?_, hpos, rfl⟩
    unfold addUsize
    by_cases hadd : pos + len < 2 ^ 64
    · rw [if_pos hadd]
      dsimp only
      rw [if_pos (by omega)]
    · rw [if_neg hadd]

/-- `read_len_delimited` does not panic. -/
theorem refines_readLenDelimited : Refines readLenDelimited Reader.readLenDelimited :=
  refines_readVarint.bind fun len => refines_takeLen len.toNat

/-- `skip` does not panic. -/
theorem refines_skip (wire : WireType) : Refines (skip wire) (Reader.skip wire) := by
  cases wire with
  | varint => exact refines_readVarint.bind fun _ => Refines.pure ()
  | i64 => exact refines_readFixed64.bind fun _ => Refines.pure ()
  | i32 => exact refines_readFixed32.bind fun _ => Refines.pure ()
  | len => exact refines_readLenDelimited.bind fun _ => Refines.pure ()

/-! ## Safety -/

/-- **A bounded, progressing and local method.** -/
structure Safe (f : Method α) : Prop where
  /-- It does not panic, and the position stays in the buffer, on errors too. -/
  bounded : ∀ (buf : Bytes) (pos : Nat), buf.length ≤ isizeMax → pos ≤ buf.length →
    ∃ r pos', f buf pos = some (r, pos') ∧ pos' ≤ buf.length
  /-- On success it moves ahead. -/
  progresses : ∀ (buf : Bytes) (pos : Nat) (a : α) (pos' : Nat), buf.length ≤ isizeMax →
    pos ≤ buf.length → f buf pos = some (.ok a, pos') → pos < pos'
  /-- Its success depends on the bytes it passes only. -/
  isLocal : ∀ (buf : Bytes) (pos : Nat) (a : α) (pos' : Nat), buf.length ≤ isizeMax →
    pos ≤ buf.length → f buf pos = some (.ok a, pos') → ∀ buf' : Bytes, buf'.length ≤ isizeMax →
      (∀ i, pos ≤ i → i < pos' → buf'[i]? = buf[i]?) → f buf' pos = some (.ok a, pos')

/-- **A method that refines a framed reader is safe.** -/
theorem Refines.safe {f : Method α} {g : ReadM α} (h : Refines f g) (hframed : Framed g)
    (hadvances : Advances g) : Safe f := by
  have hmodel : ∀ (buf : Bytes) (pos : Nat) (a : α) (pos' : Nat), buf.length ≤ isizeMax →
      pos ≤ buf.length → f buf pos = some (.ok a, pos') →
        pos' ≤ buf.length ∧ g ⟨buf, pos⟩ = .ok (a, ⟨buf, pos'⟩) := by
    intro buf pos a pos' hbuf hpos hrun
    obtain ⟨r, mid, hrun', hmid, hg⟩ := h buf pos hbuf hpos
    rw [hrun, Option.some.injEq, Prod.mk.injEq] at hrun'
    obtain ⟨rfl, rfl⟩ := hrun'
    exact ⟨hmid, hg⟩
  have hprogress : ∀ (buf : Bytes) (pos : Nat) (a : α) (pos' : Nat), buf.length ≤ isizeMax →
      pos ≤ buf.length → f buf pos = some (.ok a, pos') → pos < pos' := by
    intro buf pos a pos' hbuf hpos hrun
    exact (hframed.progresses hadvances _ _ _ hpos (hmodel buf pos a pos' hbuf hpos hrun).2).2.1
  refine ⟨?_, hprogress, ?_⟩
  · intro buf pos hbuf hpos
    obtain ⟨r, pos', hrun, hpos', -⟩ := h buf pos hbuf hpos
    exact ⟨r, pos', hrun, hpos'⟩
  · intro buf pos a pos' hbuf hpos hrun buf' hbuf' hagree
    have hlt := hprogress buf pos a pos' hbuf hpos hrun
    obtain ⟨hend, hg⟩ := hmodel buf pos a pos' hbuf hpos hrun
    -- the bytes passed are the same in both buffers
    have hlast : pos' - 1 < buf'.length := by
      have := hagree (pos' - 1) (by omega) (by omega)
      rw [List.getElem?_eq_getElem (show pos' - 1 < buf.length by omega)] at this
      exact (List.getElem?_eq_some_iff.mp this).1
    have hchunk : (buf'.drop pos).take (pos' - pos) = (buf.drop pos).take (pos' - pos) := by
      refine List.ext_getElem? fun i => ?_
      rw [List.getElem?_take, List.getElem?_take, List.getElem?_drop, List.getElem?_drop]
      split
      · exact hagree (pos + i) (by omega) (by omega)
      · rfl
    have hsplit : ∀ b : Bytes, b = b.take pos ++ ((b.drop pos).take (pos' - pos)
        ++ (b.drop pos).drop (pos' - pos)) := by
      intro b
      rw [List.take_append_drop, List.take_append_drop]
    have htake : ∀ b : Bytes, pos ≤ b.length → (b.take pos).length = pos := by
      intro b hb
      rw [List.length_take]
      omega
    obtain ⟨chunk, post, hrest, hc, hreads⟩ := hframed (buf.take pos) (buf.drop pos) a ⟨buf, pos'⟩ (by
      rw [between, List.take_append_drop, htake buf hpos]
      exact hg)
    have hlen : chunk.length = pos' - pos := by
      have := congrArg Cursor.pos hc
      simp only [between_pos, List.length_append, htake buf hpos] at this
      omega
    have hread : g ⟨buf', pos⟩ = .ok (a, ⟨buf', pos'⟩) := by
      have hnext := hreads (buf'.take pos) ((buf'.drop pos).drop (pos' - pos))
      have heq : chunk = (buf'.drop pos).take (pos' - pos) := by
        rw [hchunk, hrest, ← hlen, List.take_left]
      rw [heq] at hnext
      rw [between, between, List.append_assoc, ← hsplit buf', List.length_append,
        htake buf' (by omega), ← heq, hlen, Nat.add_sub_cancel' (Nat.le_of_lt hlt)] at hnext
      exact hnext
    obtain ⟨r, mid, hrun', -, hg'⟩ := h buf' pos hbuf' (by omega)
    rw [hread] at hg'
    cases r with
    | error e => cases hg'
    | ok b =>
        cases hg'
        exact hrun'

end Method

/-! ## Loops -/

namespace Reader

/-- Skipping a field moves forward. -/
theorem forward_skip (wire : WireType) : Forward (skip wire) := by
  rw [skip_eq]
  exact (framed_readPayload wire).forward.bind fun _ => Forward.pure ()

theorem progresses_readTag : Progresses readTag := framed_readTag.progresses advances_readTag

end Reader

section Loops

variable (w : World) (nested : NestedDecoder)

/-- A body that reads an item and then makes a step moves ahead. -/
theorem progresses_of_body {σ ε ε' α : Type} {item : Scan UInt8 ε' α} {conv : ε' → ε}
    {step : σ → α → Except ε σ} {body : σ → Scan UInt8 ε σ} (hbody : Body item conv step body)
    (hitem : Progresses item) (s : σ) : Progresses (body s) := by
  rw [hbody s]
  exact (hitem.mapErr conv).bind fun a => Forward.lift (step s a)

/-- Decoding one value moves ahead. -/
theorem progresses_decodeSingle {kind : FieldKind} (hkind : kind.isMap = false)
    (linked : Option LinkedRef) : Progresses (decodeSingle w nested kind linked) := by
  rw [decodeSingle_eq w nested hkind]
  exact (((Reader.framed_readPayload _).progresses (Reader.advances_readPayload _)).mapErr
    wireErr).bind fun payload => Forward.lift _

/-- `decode_repeated` moves forward. -/
theorem forward_decodeRepeated (kind : FieldKind) (linked : Option LinkedRef) (wire : WireType)
    (list : List PyVal) : Forward (decodeRepeated w nested kind linked wire list) := by
  cases hkind : kind.isMap with
  | true =>
      obtain ⟨key, value, rfl⟩ := FieldKind.isMap_iff.mp hkind
      exact Forward.throw _
  | false =>
      rw [decodeRepeated_eq w nested hkind]
      refine Forward.ite ?_ (Forward.ite ?_ (Forward.pure none))
      · exact (Reader.framed_readLenDelimited.forward.mapErr wireErr).bind fun chunk =>
          (Forward.lift _).bind fun items => Forward.pure _
      · exact (progresses_decodeSingle w nested hkind linked).forward.bind fun item => Forward.pure _

/-- Keeping a field as unknown moves forward. -/
theorem forward_keepUnknown (st : DecodeState) (wire : WireType) (start : Nat) :
    Forward (keepUnknown st wire start) :=
  ((Reader.forward_skip wire).mapErr wireErr).bind fun _ =>
    (Forward.rawSince start).bind fun _ => Forward.pure _

/-- The branches of the loop of `decode_message` move forward. -/
theorem forward_decodeField (desc : Descriptor) (st : DecodeState) (idx : Nat)
    (field : FieldDescriptor) (wire : WireType) (start : Nat) :
    Forward (decodeField w nested desc st idx field wire start) := by
  unfold decodeField
  refine Forward.ite (forward_keepUnknown st wire start) ?_
  dsimp only
  generalize st.claimOneof field idx = st
  split
  · refine (Reader.framed_readLenDelimited.forward.mapErr wireErr).bind fun entry =>
      (Forward.lift _).bind fun kv => ?_
    split
    · exact Forward.pure _
    · exact Forward.throw _
  · rename_i kind hkind
    have hmap : field.kind.isMap = false := by
      rw [← Bool.not_eq_true, FieldKind.isMap_iff]
      exact fun ⟨key, value, h⟩ => hkind key value h
    refine Forward.ite ?_ ?_
    · split
      · refine (forward_decodeRepeated w nested _ _ wire _).bind fun items => ?_
        cases items with
        | some items => exact Forward.pure _
        | none => exact forward_keepUnknown st wire start
      · exact Forward.throw _
    · exact (progresses_decodeSingle w nested hmap _).forward.bind fun value => Forward.pure _

/-- **The loop of `decode_message` moves ahead in every round**, for any descriptor. -/
theorem progresses_decodeBody (desc : Descriptor) (st : DecodeState) :
    Progresses (decodeBody w nested desc st) := by
  intro c a c' hpos h
  refine (Reader.progresses_readTag.mapErr wireErr).bind (fun tag => ?_) c a c' hpos h
  obtain ⟨number, wire⟩ := tag
  dsimp only
  cases desc.fieldIndex.get number with
  | none => exact forward_keepUnknown st wire c.pos
  | some idx =>
      dsimp only
      cases desc.inner.fields[idx]? with
      | some field => exact forward_decodeField w nested desc st idx field wire c.pos
      | none => exact Forward.throw _

end Loops

/-- **The reader is bounded, progressing and local**: its methods are safe and do what the reader of
the model does, and every loop of the codec over it ends, with the result the model gives it. -/
theorem reader_safe :
    (Method.Safe Method.readVarint ∧ Method.Refines Method.readVarint Reader.readVarint) ∧
    (Method.Safe Method.readTag ∧ Method.Refines Method.readTag Reader.readTag) ∧
    (Method.Safe Method.readFixed32 ∧ Method.Refines Method.readFixed32 Reader.readFixed32) ∧
    (Method.Safe Method.readFixed64 ∧ Method.Refines Method.readFixed64 Reader.readFixed64) ∧
    (Method.Safe Method.readLenDelimited ∧
      Method.Refines Method.readLenDelimited Reader.readLenDelimited) ∧
    (∀ wire, Method.Safe (Method.skip wire) ∧
      Method.Refines (Method.skip wire) (Reader.skip wire)) ∧
    (∀ w nested desc st data, Loop (decodeBody w nested desc) st (Reader.new data)
      (drainAll (decodeBody w nested desc) st (Reader.new data))) ∧
    (∀ w nested key value linked entry data,
      Loop (mapEntryBody w nested key value linked) entry (Reader.new data)
        (drainAll (mapEntryBody w nested key value linked) entry (Reader.new data))) ∧
    (∀ w nested kind linked list chunk, FieldKind.isMap kind = false →
      Loop (packedBody w nested kind linked) list (Reader.new chunk)
        (drainAll (packedBody w nested kind linked) list (Reader.new chunk))) ∧
    (∀ parts data, Loop decodePartsBody parts (Reader.new data)
      (drainAll decodePartsBody parts (Reader.new data))) ∧
    (∀ st bytes, Loop messageBody st (Reader.new bytes)
      (drainAll messageBody st (Reader.new bytes))) ∧
    (∀ raw bytes, Loop rawFieldBody raw (Reader.new bytes)
      (drainAll rawFieldBody raw (Reader.new bytes))) ∧
    (∀ st bytes, Loop nestedBody st (Reader.new bytes)
      (drainAll nestedBody st (Reader.new bytes))) ∧
    (∀ isMapEntry bytes, Loop optionsBody isMapEntry (Reader.new bytes)
      (drainAll optionsBody isMapEntry (Reader.new bytes))) ∧
    ∀ name bytes, Loop oneofBody name (Reader.new bytes)
      (drainAll oneofBody name (Reader.new bytes)) := by
  -- every loop but the packed one reads a record, so each of its rounds moves forward
  have hrecord : Progresses Reader.readRecord :=
    Reader.framed_readRecord.progresses Reader.advances_readRecord
  have hnew : ∀ bytes : Bytes, (Reader.new bytes).pos ≤ (Reader.new bytes).buf.length :=
    fun bytes => Nat.zero_le _
  refine ⟨⟨?_, Method.refines_readVarint⟩, ⟨?_, Method.refines_readTag⟩,
    ⟨?_, Method.refines_readFixed32⟩, ⟨?_, Method.refines_readFixed64⟩,
    ⟨?_, Method.refines_readLenDelimited⟩, fun wire => ⟨?_, Method.refines_skip wire⟩,
    fun w nested desc st data => ?_, fun w nested key value linked entry data => ?_,
    fun w nested kind linked list chunk hkind => ?_, fun parts data => ?_, fun st bytes => ?_,
    fun raw bytes => ?_, fun st bytes => ?_, fun isMapEntry bytes => ?_, fun name bytes => ?_⟩
  · exact Method.refines_readVarint.safe Reader.framed_readVarint Reader.advances_readVarint
  · exact Method.refines_readTag.safe Reader.framed_readTag Reader.advances_readTag
  · exact Method.refines_readFixed32.safe Reader.framed_readFixed32 Reader.advances_readFixed32
  · exact Method.refines_readFixed64.safe Reader.framed_readFixed64 Reader.advances_readFixed64
  · exact Method.refines_readLenDelimited.safe Reader.framed_readLenDelimited
      Reader.advances_readLenDelimited
  · refine (Method.refines_skip wire).safe ?_ ?_ <;> rw [Reader.skip_eq]
    · exact (Reader.framed_readPayload wire).bind fun _ => Framed.pure ()
    · exact Advances.bind (Reader.framed_readPayload wire) (Reader.advances_readPayload wire)
  · exact loop_drainAll (progresses_decodeBody w nested desc) st (hnew data)
  · exact loop_drainAll (progresses_of_body (mapEntry_body w nested key value linked) hrecord) entry
      (hnew data)
  · exact loop_drainAll (fun list => (progresses_decodeSingle w nested hkind linked).bind
      fun item => Forward.pure _) list (hnew chunk)
  · exact loop_drainAll (progresses_of_body decodeParts_body hrecord) parts (hnew data)
  · exact loop_drainAll (progresses_of_body message_body hrecord) st (hnew bytes)
  · exact loop_drainAll (progresses_of_body rawField_body hrecord) raw (hnew bytes)
  · exact loop_drainAll (progresses_of_body nested_body hrecord) st (hnew bytes)
  · exact loop_drainAll (progresses_of_body options_body hrecord) isMapEntry (hnew bytes)
  · exact loop_drainAll (progresses_of_body oneof_body hrecord) name (hnew bytes)

end FastProto
