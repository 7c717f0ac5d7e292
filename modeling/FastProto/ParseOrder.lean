import FastProto.Parse
import FastProto.Lib.Reorder

/-! # The parser does not depend on the order of fields

The loops of the parser take the fields of a descriptor message in the order of the wire. Fields of
different numbers fill different variables, so a reordering that keeps the fields of each number in
order is parsed alike, in the message and in the messages inside of it. -/

namespace FastProto

open Lib Lib.Cursor

/-! ## Reordered messages -/

/-- The same wire field, up to what `inner` allows inside of a length-delimited payload. -/
def Matches (inner : UInt32 → Bytes → Bytes → Prop) (rec rec' : Record) : Prop :=
  rec'.number = rec.number ∧ (rec'.payload = rec.payload ∨
    ∃ data data', rec.payload = .len data ∧ rec'.payload = .len data' ∧
      inner rec.number data data')

/-- **The wire fields of a message in another order**, which keeps those of one number in order. -/
def ReorderedBy (inner : UInt32 → Bytes → Bytes → Prop) (data data' : Bytes) : Prop :=
  ∃ recs mid recs', Split Reader.readRecord data recs ∧ List.Forall₂ (Matches inner) recs mid ∧
    Reorder Record.number mid recs' ∧ Split Reader.readRecord data' recs'

/-- A message without messages inside, reordered. -/
def Shuffled : Bytes → Bytes → Prop := ReorderedBy fun _ _ _ => False

/-- **A `DescriptorProto` reordered**, with every field (2), its options (7) and every oneof (8)
reordered inside, and so on in the nested types (3), some levels deep. -/
def DescriptorReordered : Nat → Bytes → Bytes → Prop
  | 0, data, data' => data = data'
  | depth + 1, data, data' =>
      ReorderedBy (fun number data data' =>
        match number.toNat with
        | 2 | 7 | 8 => Shuffled data data'
        | 3 => DescriptorReordered depth data data'
        | _ => False) data data'

section Loops

variable {σ : Type} {step : σ → Record → Except ParseError σ} {body : σ → ParseM σ}
  {inner : UInt32 → Bytes → Bytes → Prop}

/-- **A loop of the parser does not see a reordering** of what it reads, when its steps commute for
different numbers and do not see one inside. -/
theorem drainAll_reordered (hbody : Body Reader.readRecord .wire step body)
    (hcomm : ∀ a b : Record, a.number ≠ b.number → ∀ s,
      SameOk (step s a >>= fun s' => step s' b) (step s b >>= fun s' => step s' a))
    (hinner : ∀ (number : UInt32) (data data' : Bytes), inner number data data' → ∀ s,
      SameOk (step s ⟨number, .len data⟩) (step s ⟨number, .len data'⟩))
    {data data' : Bytes} (h : ReorderedBy inner data data') (s : σ) :
    SameOk (drainAll body s (Reader.new data)) (drainAll body s (Reader.new data')) := by
  obtain ⟨recs, mid, recs', hsplit, hmatch, hreorder, hsplit'⟩ := h
  rw [Reader.new, Reader.new, drainAll_split hbody hsplit, drainAll_split hbody hsplit']
  refine SameOk.trans (foldlM_sameOk (fun rec rec' hrec => ?_) hmatch s)
    (foldlM_reorder hcomm hreorder s)
  obtain ⟨number, payload⟩ := rec
  obtain ⟨number', payload'⟩ := rec'
  obtain ⟨hnumber, hpayload⟩ := hrec
  dsimp only at hnumber hpayload
  subst hnumber
  rcases hpayload with rfl | ⟨data, data', rfl, rfl, hdata⟩
  · exact fun s => .refl _
  · exact hinner _ data data' hdata

/-- A loop over a message without messages inside. -/
theorem drainAll_shuffled (hbody : Body Reader.readRecord .wire step body)
    (hcomm : ∀ a b : Record, a.number ≠ b.number → ∀ s,
      SameOk (step s a >>= fun s' => step s' b) (step s b >>= fun s' => step s' a))
    {data data' : Bytes} (h : Shuffled data data') (s : σ) :
    SameOk (drainAll body s (Reader.new data)) (drainAll body s (Reader.new data')) :=
  drainAll_reordered hbody hcomm (fun _ _ _ hfalse => hfalse.elim) h s

end Loops

/-! ## Fields -/

/-- The variables of `parse_raw_field` that a wire field of each number fills. -/
inductive RawField.Update : Nat → (RawField → RawField) → Prop
  | name (name : String) : Update 1 fun raw => { raw with name }
  | number (number : UInt32) : Update 3 fun raw => { raw with number }
  | label (label : Int64) : Update 4 fun raw => { raw with label }
  | typeCode (code : Int64) : Update 5 fun raw => { raw with typeCode := some code }
  | typeName (typeName : String) : Update 6 fun raw => { raw with typeName := some typeName }
  | oneofIndex (idx : UInt32) : Update 9 fun raw => { raw with oneofIndex := some idx }
  | proto3Optional (flag : Bool) : Update 17 fun raw => { raw with proto3Optional := flag }
  | skip (number : Nat) : Update number id

/-- Different numbers fill different variables. -/
theorem RawField.Update.comm {m n : Nat} {f g : RawField → RawField} (hf : Update m f)
    (hg : Update n g) (hne : m ≠ n) (raw : RawField) : f (g raw) = g (f raw) := by
  cases hf <;> cases hg <;> first | rfl | exact absurd rfl hne

/-- What a wire field does in `parse_raw_field`. -/
theorem rawFieldStep_acts (rec : Record) :
    Acts rawFieldStep rec (RawField.Update rec.number.toNat) := by
  obtain ⟨number, payload⟩ := rec
  dsimp only
  cases payload with
  | len data =>
      by_cases hname : number.toNat = 1
      · rw [hname]
        exact .of_bind (fun s => by unfold rawFieldStep; simp only [hname]; rfl) .name
      · by_cases htype : number.toNat = 6
        · rw [htype]
          exact .of_bind (fun s => by unfold rawFieldStep; simp only [htype]; rfl) .typeName
        · exact .of_ok (fun s => by unfold rawFieldStep; split <;> simp_all) (.skip _)
  | varint v =>
      by_cases hnumber : number.toNat = 3
      · rw [hnumber]
        exact .of_ok (fun s => by unfold rawFieldStep; simp only [hnumber]; rfl) (.number _)
      by_cases hlabel : number.toNat = 4
      · rw [hlabel]
        exact .of_ok (fun s => by unfold rawFieldStep; simp only [hlabel]; rfl) (.label _)
      by_cases htype : number.toNat = 5
      · rw [htype]
        exact .of_ok (fun s => by unfold rawFieldStep; simp only [htype]; rfl) (.typeCode _)
      by_cases honeof : number.toNat = 9
      · rw [honeof]
        exact .of_ok (fun s => by unfold rawFieldStep; simp only [honeof]; rfl) (.oneofIndex _)
      by_cases hoptional : number.toNat = 17
      · rw [hoptional]
        exact .of_ok (fun s => by unfold rawFieldStep; simp only [hoptional]; rfl) (.proto3Optional _)
      · exact .of_ok (fun s => by unfold rawFieldStep; split <;> simp_all) (.skip _)
  | i64 bits => exact .of_ok (fun s => by unfold rawFieldStep; split <;> simp_all) (.skip _)
  | i32 bits => exact .of_ok (fun s => by unfold rawFieldStep; split <;> simp_all) (.skip _)

/-- **A `FieldDescriptorProto` in another order.** -/
theorem parseRawField_shuffled {data data' : Bytes} (h : Shuffled data data') :
    SameOk (parseRawField data) (parseRawField data') :=
  drainAll_shuffled rawField_body (fun a b hne s => (rawFieldStep_acts a).comm (rawFieldStep_acts b)
    (fun _ _ hf hg => hf.comm hg fun heq => hne (UInt32.toNat_inj.mp heq)) s) h {}

/-! ## Oneofs and options -/

/-- The name of a oneof comes from the field 1 alone. -/
theorem oneofStep_acts (rec : Record) :
    Acts oneofStep rec fun f => rec.number.toNat = 1 ∨ f = id := by
  obtain ⟨number, payload⟩ := rec
  dsimp only
  by_cases hname : number.toNat = 1
  · cases payload with
    | len data =>
        exact .of_bind (x := stringOf data) (f := fun name _ => name)
          (fun s => by
            unfold oneofStep
            simp only [hname]
            cases stringOf data <;> rfl)
          fun _ => .inl hname
    | _ => exact .of_ok (fun s => by unfold oneofStep; split <;> simp_all) (.inr rfl)
  · exact .of_ok (fun s => by unfold oneofStep; split <;> simp_all) (.inr rfl)

/-- **A `OneofDescriptorProto` in another order.** -/
theorem oneofName_shuffled {data data' : Bytes} (h : Shuffled data data') (s : String) :
    SameOk (drainAll oneofBody s (Reader.new data)) (drainAll oneofBody s (Reader.new data')) := by
  refine drainAll_shuffled oneof_body (fun a b hne s => (oneofStep_acts a).comm (oneofStep_acts b)
    (fun f g hf hg s => ?_) s) h s
  rcases hf with ha | rfl
  · rcases hg with hb | rfl
    · exact absurd (UInt32.toNat_inj.mp (ha.trans hb.symm)) hne
    · rfl
  · rfl

/-- The flag of a map entry comes from the field 7 alone. -/
theorem optionsStep_acts (rec : Record) :
    Acts optionsStep rec fun f => rec.number.toNat = 7 ∨ f = id := by
  obtain ⟨number, payload⟩ := rec
  dsimp only
  by_cases hflag : number.toNat = 7
  · cases payload with
    | varint v =>
        exact .of_ok (f := fun _ => decide (v ≠ 0))
          (fun s => by unfold optionsStep; simp only [hflag]) (.inl hflag)
    | _ => exact .of_ok (fun s => by unfold optionsStep; split <;> simp_all) (.inr rfl)
  · exact .of_ok (fun s => by unfold optionsStep; split <;> simp_all) (.inr rfl)

/-- **A `MessageOptions` in another order.** -/
theorem isMapEntry_shuffled {data data' : Bytes} (h : Shuffled data data') (s : Bool) :
    SameOk (drainAll optionsBody s (Reader.new data)) (drainAll optionsBody s (Reader.new data')) := by
  refine drainAll_shuffled options_body (fun a b hne s => (optionsStep_acts a).comm
    (optionsStep_acts b) (fun f g hf hg s => ?_) s) h s
  rcases hf with ha | rfl
  · rcases hg with hb | rfl
    · exact absurd (UInt32.toNat_inj.mp (ha.trans hb.symm)) hne
    · rfl
  · rfl

/-- A `MessageOptions` does the same to the flag wherever it stands. -/
theorem options_acts (data : Bytes) :
    (∀ s t, drainAll optionsBody s (Reader.new data) ≠ .ok t) ∨
      ∃ f : Bool → Bool, ∀ s, drainAll optionsBody s (Reader.new data) = .ok (f s) := by
  by_cases hsplit : ∃ recs, Split Reader.readRecord data recs
  · obtain ⟨recs, hsplit⟩ := hsplit
    simp only [Reader.new, drainAll_split options_body hsplit]
    exact foldlM_acts optionsStep_acts recs
  · refine .inl fun s t h => hsplit ?_
    obtain ⟨recs, hrecs, -⟩ := (drainAll_eq_ok Reader.framed_readRecord Reader.advances_readRecord
      options_body).mp h
    exact ⟨recs, hrecs⟩

/-! ## Nested types -/

/-- The variables of `parse_nested_map_entry` that a wire field of each number fills. -/
inductive NestedState.Update : Nat → (NestedState → NestedState) → Prop
  | name (name : String) : Update 1 fun st => { st with name }
  | key (key : Option ScalarType) : Update 2 fun st => { st with key }
  | value (value : MapValue) (valueTypeName : Option String) :
      Update 2 fun st => { st with value := some value, valueTypeName }
  | options (f : Bool → Bool) : Update 7 fun st => { st with isMapEntry := f st.isMapEntry }
  | skip (number : Nat) : Update number id

/-- Different numbers fill different variables. -/
theorem NestedState.Update.comm {m n : Nat} {f g : NestedState → NestedState} (hf : Update m f)
    (hg : Update n g) (hne : m ≠ n) (st : NestedState) : f (g st) = g (f st) := by
  cases hf <;> cases hg <;> first | rfl | exact absurd rfl hne

/-- What a field of an entry does, once it is collected. -/
theorem addField_acts (raw : RawField) :
    Acts NestedState.addField raw (NestedState.Update 2) := by
  unfold Acts NestedState.addField
  cases raw.typeCode with
  | none => exact .inl fun s t h => nomatch h
  | some typeCode =>
      dsimp only
      by_cases hkey : raw.number = 1
      · simp only [if_pos hkey]
        exact .inr ⟨_, .key (scalarFromProtoType typeCode), fun s => rfl⟩
      · simp only [if_neg hkey]
        by_cases hvalue : raw.number = 2
        · simp only [if_pos hvalue]
          cases mapValueOf typeCode raw.typeName with
          | error e => exact .inl fun s t h => nomatch h
          | ok value => exact .inr ⟨_, .value value _, fun s => rfl⟩
        · simp only [if_neg hvalue]
          exact .inr ⟨id, .skip 2, fun s => rfl⟩

/-- What a wire field does in `parse_nested_map_entry`. -/
theorem nestedStep_acts (rec : Record) :
    Acts nestedStep rec (NestedState.Update rec.number.toNat) := by
  obtain ⟨number, payload⟩ := rec
  dsimp only
  cases payload with
  | len data =>
      by_cases hname : number.toNat = 1
      · rw [hname]
        exact .of_bind (fun s => by unfold nestedStep; simp only [hname]; rfl) .name
      by_cases hfield : number.toNat = 2
      · rw [hfield]
        have hstep : ∀ s, nestedStep s ⟨number, .len data⟩ = parseRawField data >>= s.addField := by
          intro s
          unfold nestedStep
          simp only [hfield]
        unfold Acts
        simp only [hstep]
        cases parseRawField data with
        | error e => exact .inl fun s t h => nomatch h
        | ok raw => exact addField_acts raw
      by_cases hoptions : number.toNat = 7
      · rw [hoptions]
        have hstep : ∀ s, nestedStep s ⟨number, .len data⟩
            = drainAll optionsBody s.isMapEntry (Reader.new data) >>= fun isMapEntry =>
                .ok { s with isMapEntry } := by
          intro s
          unfold nestedStep
          simp only [hoptions]
        unfold Acts
        simp only [hstep]
        rcases options_acts data with hfail | ⟨f, hf⟩
        · refine .inl fun s t h => ?_
          obtain ⟨flag, hflag, -⟩ := bind_eq_ok.mp h
          exact hfail _ flag hflag
        · exact .inr ⟨_, .options f, fun s => by rw [hf]; rfl⟩
      · exact .of_ok (fun s => by unfold nestedStep; split <;> simp_all) (.skip _)
  | _ => exact .of_ok (fun s => by unfold nestedStep; split <;> simp_all) (.skip _)

/-- What a nested type may have reordered inside. -/
theorem nestedStep_inner {depth : Nat} {number : UInt32} {data data' : Bytes}
    (h : match number.toNat with
      | 2 | 7 | 8 => Shuffled data data'
      | 3 => DescriptorReordered depth data data'
      | _ => False) (s : NestedState) :
    SameOk (nestedStep s ⟨number, .len data⟩) (nestedStep s ⟨number, .len data'⟩) := by
  unfold nestedStep
  dsimp only
  split at h
  · rename_i hnumber
    simp only [hnumber]
    exact (parseRawField_shuffled h).bind fun raw => .refl _
  · rename_i hnumber
    simp only [hnumber]
    exact (isMapEntry_shuffled h _).bind fun flag => .refl _
  · rename_i hnumber
    simp only [hnumber]
    exact .refl _
  · rename_i hnumber
    simp only [hnumber]
    exact .refl _
  · exact h.elim

/-- **A nested `DescriptorProto` in another order.** -/
theorem parseNestedMapEntry_reordered {depth : Nat} {data data' : Bytes}
    (h : DescriptorReordered depth data data') :
    SameOk (parseNestedMapEntry data) (parseNestedMapEntry data') := by
  cases depth with
  | zero =>
      cases h
      exact .refl _
  | succ depth =>
      refine SameOk.bind ?_ fun st => .refl _
      exact drainAll_reordered nested_body
        (fun a b hne s => (nestedStep_acts a).comm (nestedStep_acts b)
          (fun _ _ hf hg => hf.comm hg fun heq => hne (UInt32.toNat_inj.mp heq)) s)
        (fun _ _ _ hinner s => nestedStep_inner hinner s) h {}

/-! ## Messages -/

/-- The variables of `parse_message` that a wire field of each number fills. -/
inductive ParseState.Update : Nat → (ParseState → ParseState) → Prop
  | name (name : String) : Update 1 fun st => { st with name }
  | field (raw : RawField) : Update 2 fun st => { st with rawFields := st.rawFields ++ [raw] }
  | nested (entry : Option (String × MapEntry)) :
      Update 3 fun st => { st with mapEntries := entry.toList ++ st.mapEntries }
  | oneof (name : String) : Update 8 fun st => { st with oneofs := st.oneofs ++ [name] }
  | skip (number : Nat) : Update number id

/-- Different numbers fill different variables. -/
theorem ParseState.Update.comm {m n : Nat} {f g : ParseState → ParseState} (hf : Update m f)
    (hg : Update n g) (hne : m ≠ n) (st : ParseState) : f (g st) = g (f st) := by
  cases hf <;> cases hg <;> first | rfl | exact absurd rfl hne

/-- What a wire field does in `parse_message`. -/
theorem messageStep_acts (rec : Record) :
    Acts messageStep rec (ParseState.Update rec.number.toNat) := by
  obtain ⟨number, payload⟩ := rec
  dsimp only
  cases payload with
  | len data =>
      by_cases hname : number.toNat = 1
      · rw [hname]
        exact .of_bind (fun s => by unfold messageStep; simp only [hname]; rfl) .name
      by_cases hfield : number.toNat = 2
      · rw [hfield]
        exact .of_bind (fun s => by unfold messageStep; simp only [hfield]; rfl) .field
      by_cases hnested : number.toNat = 3
      · rw [hnested]
        exact .of_bind (fun s => by unfold messageStep; simp only [hnested]; rfl) .nested
      by_cases honeof : number.toNat = 8
      · rw [honeof]
        exact .of_bind (fun s => by unfold messageStep; simp only [honeof]; rfl) .oneof
      · exact .of_ok (fun s => by unfold messageStep; split <;> simp_all) (.skip _)
  | _ => exact .of_ok (fun s => by unfold messageStep; split <;> simp_all) (.skip _)

/-- What a message may have reordered inside. -/
theorem messageStep_inner {depth : Nat} {number : UInt32} {data data' : Bytes}
    (h : match number.toNat with
      | 2 | 7 | 8 => Shuffled data data'
      | 3 => DescriptorReordered depth data data'
      | _ => False) (s : ParseState) :
    SameOk (messageStep s ⟨number, .len data⟩) (messageStep s ⟨number, .len data'⟩) := by
  unfold messageStep
  dsimp only
  split at h
  · rename_i hnumber
    simp only [hnumber]
    exact (parseRawField_shuffled h).bind fun raw => .refl _
  · rename_i hnumber
    simp only [hnumber]
    exact .refl _
  · rename_i hnumber
    simp only [hnumber]
    exact (oneofName_shuffled h _).bind fun name => .refl _
  · rename_i hnumber
    simp only [hnumber]
    exact (parseNestedMapEntry_reordered h).bind fun entry => .refl _
  · exact h.elim

/-- **The parser does not depend on the order of fields**: a descriptor reordered, at the top and
inside, is accepted like the original, with the same result. -/
theorem parseMessage_reordered {depth : Nat} {bytes bytes' : Bytes}
    (h : DescriptorReordered depth bytes bytes') (desc : MessageDescriptor) :
    parseMessage bytes = .ok desc ↔ parseMessage bytes' = .ok desc := by
  cases depth with
  | zero =>
      cases h
      exact Iff.rfl
  | succ depth =>
      -- records of different numbers act on different parts of the state
      have hloop : SameOk (drainAll messageBody {} (Reader.new bytes))
          (drainAll messageBody {} (Reader.new bytes')) :=
        drainAll_reordered message_body
          (fun a b hne s => (messageStep_acts a).comm (messageStep_acts b)
            (fun _ _ hf hg => hf.comm hg fun heq => hne (UInt32.toNat_inj.mp heq)) s)
          (fun _ _ _ hinner s => messageStep_inner hinner s) h {}
      exact hloop.bind (fun st => .refl _) desc

/-- The message `M` with the field `int32 a = 1`, written with the name last and the type of the field
first. -/
theorem parseMessage_reordered_field :
    parseMessage [0x12, 7, 0x28, 5, 0x0a, 1, 0x61, 0x18, 1, 0x0a, 1, 0x4d] =
      .ok { name := "M"
            fields := [{ number := 1, name := "a", kind := .scalar .int32, label := .single,
                         typeName := none, oneofIndex := none }]
            oneofs := [] } := by
  let field : List Record := [⟨1, .len [0x61]⟩, ⟨3, .varint 1⟩, ⟨5, .varint 5⟩]
  let field' : List Record := [⟨5, .varint 5⟩, ⟨1, .len [0x61]⟩, ⟨3, .varint 1⟩]
  have hsplit : ∀ (recs : List Record) (data : Bytes), (∀ rec ∈ recs, ValidNumber rec.number) →
      recordsBytes recs = data → data.length < 2 ^ 64 → Split Reader.readRecord data recs := by
    rintro recs _ hvalid rfl hlen
    exact split_recordsBytes fun rec hrec => ⟨hvalid rec hrec, fits_of_recordsBytes hlen rec hrec⟩
  have hfield : Shuffled (recordsBytes field) (recordsBytes field') :=
    ⟨field, field, field', hsplit _ _ (by decide) rfl (by decide), List.forall₂_same.mpr fun _ _ =>
      ⟨rfl, .inl rfl⟩, ((Reorder.swap (by decide) []).cons _).trans (.swap (by decide) _),
      hsplit _ _ (by decide) rfl (by decide)⟩
  have hbytes : DescriptorReordered 1 [0x0a, 1, 0x4d, 0x12, 7, 0x0a, 1, 0x61, 0x18, 1, 0x28, 5]
      [0x12, 7, 0x28, 5, 0x0a, 1, 0x61, 0x18, 1, 0x0a, 1, 0x4d] :=
    ⟨[⟨1, .len [0x4d]⟩, ⟨2, .len (recordsBytes field)⟩],
      [⟨1, .len [0x4d]⟩, ⟨2, .len (recordsBytes field')⟩],
      [⟨2, .len (recordsBytes field')⟩, ⟨1, .len [0x4d]⟩],
      hsplit _ _ (by decide) (by decide) (by decide),
      .cons ⟨rfl, .inl rfl⟩ (.cons ⟨rfl, .inr ⟨_, _, rfl, rfl, hfield⟩⟩ .nil),
      .swap (by decide) [], hsplit _ _ (by decide) (by decide) (by decide)⟩
  exact (parseMessage_reordered hbytes _).mp (by rfl)

end FastProto
