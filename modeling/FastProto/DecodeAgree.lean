import FastProto.Family
import FastProto.DecodeConforms

/-! # Decoding in two worlds

Decoding looks at the descriptors it reaches through message fields and at nothing else of the link
state: two worlds that agree on these decode every input alike, errors included. -/

namespace FastProto

open Lib Lib.Cursor

section Congruence

variable {u w : World} {nu nw : NestedDecoder}

/-- Coercing an enum value looks at the classes alone. -/
theorem coerceEnum_congr (hcls : u.cls = w.cls) (linked : Option LinkedRef) (value : Int32) :
    coerceEnum u linked value = coerceEnum w linked value := by
  unfold coerceEnum
  rw [hcls]

/-- What the nested messages of a kind decode to is the same. -/
def NestedAgree (nu nw : NestedDecoder) (kind : FieldKind) (linked : Option LinkedRef) : Prop :=
  kind.refersToMessage = true → decodeMessageValue nu linked = decodeMessageValue nw linked

/-- A singular value decodes alike. -/
theorem decodeSingle_congr (hcls : u.cls = w.cls) {kind : FieldKind} {linked : Option LinkedRef}
    (hnested : NestedAgree nu nw kind linked) :
    decodeSingle u nu kind linked = decodeSingle w nw kind linked := by
  cases kind with
  | enum => simp only [decodeSingle, decodeEnum, coerceEnum_congr hcls]
  | message => simp only [decodeSingle, hnested rfl]
  | _ => rfl

/-- The loop over a packed chunk is the same. -/
theorem packedBody_congr (hcls : u.cls = w.cls) {kind : FieldKind} {linked : Option LinkedRef}
    (hnested : NestedAgree nu nw kind linked) :
    packedBody u nu kind linked = packedBody w nw kind linked := by
  funext list
  unfold packedBody
  rw [decodeSingle_congr hcls hnested]

/-- A repeated field decodes alike. -/
theorem decodeRepeated_congr (hcls : u.cls = w.cls) {kind : FieldKind} (hmap : kind.isMap = false)
    {linked : Option LinkedRef} (hnested : NestedAgree nu nw kind linked) (wire : WireType)
    (list : List PyVal) :
    decodeRepeated u nu kind linked wire list = decodeRepeated w nw kind linked wire list := by
  rw [decodeRepeated_eq u nu hmap, decodeRepeated_eq w nw hmap, packedBody_congr hcls hnested,
    decodeSingle_congr hcls hnested]

/-- The values of a map agree as the map does. -/
theorem NestedAgree.mapValue {key : ScalarType} {valueKind : MapValue} {linked : Option LinkedRef}
    (h : NestedAgree nu nw (.map key valueKind) linked) :
    NestedAgree nu nw valueKind.kind linked := by
  cases valueKind with
  | message => exact h
  | _ => exact nofun

/-- A map entry decodes alike. -/
theorem decodeMapEntry_congr (hcls : u.cls = w.cls) {key : ScalarType} {valueKind : MapValue}
    {linked : Option LinkedRef} (hnested : NestedAgree nu nw (.map key valueKind) linked)
    (entry : Bytes) :
    decodeMapEntry u nu key valueKind linked entry = decodeMapEntry w nw key valueKind linked entry := by
  have hbody : mapEntryBody u nu key valueKind linked = mapEntryBody w nw key valueKind linked := by
    funext seen
    rw [mapEntryBody_eq, mapEntryBody_eq, decodeSingle_congr hcls hnested.mapValue]
  have hdefault : mapValueDefault u nu valueKind linked = mapValueDefault w nw valueKind linked := by
    cases valueKind with
    | enum => exact coerceEnum_congr hcls linked 0
    | message => exact congrFun (hnested rfl) []
    | _ => rfl
  unfold decodeMapEntry
  rw [hbody, hdefault]

/-- **The loop body of a message is the same**, field by field. -/
theorem decodeBody_congr (hcls : u.cls = w.cls) {du dw : Descriptor} (hinner : du.inner = dw.inner)
    (href : du.ref = dw.ref) (hnested : ∀ field ∈ dw.inner.fields,
      NestedAgree nu nw field.kind (dw.ref field.number)) :
    decodeBody u nu du = decodeBody w nw dw := by
  have hfield : ∀ field ∈ dw.inner.fields, ∀ st idx wire start,
      decodeField u nu du st idx field wire start = decodeField w nw dw st idx field wire start := by
    intro field hmem st idx wire start
    have hagree := hnested field hmem
    unfold decodeField
    rw [href]
    cases hk : field.kind with
    | map key valueKind =>
        rw [hk] at hagree
        simp only [decodeMapEntry_congr hcls hagree]
    | _ =>
        rw [hk] at hagree
        simp only [decodeRepeated_congr hcls rfl hagree, decodeSingle_congr hcls hagree]
  funext st reader
  unfold decodeBody Descriptor.fieldIndex
  rw [hinner]
  show (orWireErr Reader.readTag >>= _) reader = (orWireErr Reader.readTag >>= _) reader
  refine congrFun (congrArg (orWireErr Reader.readTag >>= ·) (funext fun tag => ?_)) reader
  dsimp only
  cases (FieldIndex.build dw.inner.fields).get tag.1 with
  | none => rfl
  | some idx =>
      dsimp only
      cases hidx : dw.inner.fields[idx]? with
      | none => rfl
      | some field => exact hfield field (List.mem_of_getElem? hidx) st idx tag.2 reader.pos

end Congruence

/-- **Two worlds agree on a set of message classes** closed under message references: same classes,
same fields and references, and instances built alike. -/
structure Agree (u w : World) (dom : ClassId → DescId → Prop) : Prop where
  cls : u.cls = w.cls
  inner : ∀ c d, dom c d → (u.descriptor d).inner = (w.descriptor d).inner
  ref : ∀ c d, dom c d → (u.descriptor d).ref = (w.descriptor d).ref
  wellFormed : ∀ c d, dom c d → (w.descriptor d).inner.WellFormed
  messages : ∀ c d, dom c d → ∀ field ∈ (w.descriptor d).inner.fields,
    field.kind.refersToMessage = true → ∀ linked, (w.descriptor d).ref field.number = some linked →
      ∀ d', linked.desc = some d' → dom linked.cls d'
  construct : ∀ c d, dom c d → ∀ values unknown,
    List.Forall₂ (fun (field : FieldDescriptor) (v : Option PyVal) =>
      field.isCollection = true → v.isSome = true) (w.descriptor d).inner.fields values →
    FastProto.construct u c (u.descriptor d) values unknown
      = FastProto.construct w c (w.descriptor d) values unknown

/-- **Worlds that agree decode alike**: same value or same error. -/
theorem Agree.decodeMessage {u w : World} {dom : ClassId → DescId → Prop} (h : Agree u w dom)
    (levels : Nat) : ∀ c d data, dom c d →
      FastProto.decodeMessage u levels c d data = FastProto.decodeMessage w levels c d data := by
  induction levels with
  | zero => exact fun c d data _ => rfl
  | succ levels ih =>
      intro c d data hdom
      have hbody : decodeBody u (FastProto.decodeMessage u levels) (u.descriptor d)
          = decodeBody w (FastProto.decodeMessage w levels) (w.descriptor d) := by
        refine decodeBody_congr h.cls (h.inner c d hdom) (h.ref c d hdom)
          fun field hfield hrefers => ?_
        funext sub
        unfold decodeMessageValue
        cases href : (w.descriptor d).ref field.number with
        | none => rfl
        | some linked =>
            dsimp only
            cases hdesc : linked.desc with
            | none => rfl
            | some d' =>
                exact ih linked.cls d' sub (h.messages c d hdom field hfield hrefers linked href d' hdesc)
      have hwf := h.wellFormed c d hdom
      unfold FastProto.decodeMessage
      dsimp only
      rw [hbody, h.inner c d hdom]
      cases hloop : drainAll (decodeBody w (FastProto.decodeMessage w levels) (w.descriptor d))
          (DecodeState.init (w.descriptor d).inner.fields) (Reader.new data) with
      | error e => rfl
      | ok st =>
          rw [ok_bind, ok_bind]
          have hready : st.Ready (w.descriptor d).inner.fields := ready_of_loop hwf hloop
          exact h.construct c d hdom st.values st.unknown hready.collections

end FastProto
