import Mathlib.Tactic.FinCases
import NumberPlan.Metadata.Collection
import NumberPlan.Proofs.Text.Utf8
import NumberPlan.Proofs.Wire.Message

/-!
# Records survive their encoding

    parseCollection mode (some bytes) = .ok rs                            (parseCollection_write)

where `bytes` is what `writeCollection` makes of the records `rs`, each of which can be stored
(`Record.Storable`), if these are fewer than 2 ^ 31 bytes.

Fields are taken in one after the other, each with a change to the record read so far
(`Conveys`).  A field that is not set makes none; the twelve descriptions of a record differ only
in number and place (`DescSlot`).
-/

namespace NumberPlan

/-! ## Fields taken in -/

/-- The fields can be read back, and taking them in makes this change. -/
structure Conveys {σ : Type} (shape : Shape) (absorb : σ → Field → Option σ) (fs : List Field)
    (change : σ → σ) : Prop where
  regular : ∀ f ∈ fs, f.Regular shape
  absorbed : ∀ s, fs.foldlM absorb s = some (change s)

section

variable {σ α : Type} {shape : Shape} {absorb : σ → Field → Option σ}

theorem conveys_nil : Conveys shape absorb [] id := ⟨nofun, fun _ => rfl⟩

theorem conveys_singleton {f : Field} {change : σ → σ} (hregular : f.Regular shape)
    (habsorb : ∀ s, absorb s f = some (change s)) : Conveys shape absorb [f] change := by
  constructor
  · intro g hg
    rw [List.mem_singleton.mp hg]
    exact hregular
  · intro s
    rw [List.foldlM_cons, habsorb]
    rfl

theorem Conveys.append {fs gs : List Field} {change change' : σ → σ}
    (h : Conveys shape absorb fs change) (h' : Conveys shape absorb gs change') :
    Conveys shape absorb (fs ++ gs) fun s => change' (change s) := by
  constructor
  · exact List.forall_mem_append.mpr ⟨h.regular, h'.regular⟩
  · intro s
    rw [List.foldlM_append, h.absorbed]
    exact h'.absorbed (change s)

/-- A field that is not set makes no change. -/
theorem conveys_fieldOf (number : Nat) (payload : α → Payload) (v : Option α)
    (put : Option α → σ → σ) (hunset : ∀ s, put none s = s)
    (hregular : ∀ a, v = some a → Field.Regular shape (number, payload a))
    (habsorb : ∀ a, v = some a → ∀ s, absorb s (number, payload a) = some (put (some a) s)) :
    Conveys shape absorb (fieldOf number payload v) (put v) := by
  cases v with
  | none =>
    have hput : put none = id := funext hunset
    rw [hput]
    exact conveys_nil
  | some a => exact conveys_singleton (hregular a rfl) (habsorb a rfl)

section

variable {number : Nat} (hnumber : 1 ≤ number ∧ number < 2 ^ 29)

include hnumber

theorem conveys_text (v : Option String) (put : Option String → σ → σ)
    (hunset : ∀ s, put none s = s) (hpart : shape.isPart number = false)
    (habsorb : ∀ s bs, absorb s (number, .bytes bs) =
      (ofUtf8? bs).map fun t => put (some t) s) :
    Conveys shape absorb (fieldOf number textPayload v) (put v) := by
  apply conveys_fieldOf number textPayload v put hunset
  · exact fun t _ => ⟨hnumber.1, hnumber.2, hpart⟩
  · intro t _ s
    show absorb s (number, .bytes (utf8 t)) = _
    rw [habsorb, ofUtf8?_utf8]
    rfl

theorem conveys_int (v : Option Int) (hv : ∀ i ∈ v, IsInt32 i) (put : Option Int → σ → σ)
    (hunset : ∀ s, put none s = s)
    (habsorb : ∀ s n, absorb s (number, .varint n) =
      (intOfVarint? n).map fun i => put (some i) s) :
    Conveys shape absorb (fieldOf number intPayload v) (put v) := by
  apply conveys_fieldOf number intPayload v put hunset
  · exact fun i _ => ⟨hnumber.1, hnumber.2, varintOfInt_lt i⟩
  · intro i hi s
    show absorb s (number, .varint (varintOfInt i)) = _
    rw [habsorb, intOfVarint?_varintOfInt i (hv i hi)]
    rfl

theorem conveys_bool (v : Option Bool) (put : Option Bool → σ → σ) (hunset : ∀ s, put none s = s)
    (habsorb : ∀ s n, absorb s (number, .varint n) = some (put (some (n != 0)) s)) :
    Conveys shape absorb (fieldOf number boolPayload v) (put v) := by
  apply conveys_fieldOf number boolPayload v put hunset
  · intro b _
    refine ⟨hnumber.1, hnumber.2, ?_⟩
    show (if b then 1 else 0) < 2 ^ 64
    cases b <;> decide
  · intro b _ s
    show absorb s (number, .varint (if b then 1 else 0)) = _
    rw [habsorb]
    cases b <;> rfl

/-- A list takes in its values one by one. -/
theorem conveys_ints (put : List Int → σ → σ) (hnil : ∀ s, put [] s = s)
    (hcons : ∀ s i is, put is (put [i] s) = put (i :: is) s)
    (habsorb : ∀ s n, absorb s (number, .varint n) = (intOfVarint? n).map fun i => put [i] s)
    (is : List Int) (his : ∀ i ∈ is, IsInt32 i) :
    Conveys shape absorb (is.map fun i => (number, intPayload i)) (put is) := by
  induction is with
  | nil =>
    have hput : put [] = id := funext hnil
    rw [hput]
    exact conveys_nil
  | cons i is ih =>
    obtain ⟨hi, his⟩ := List.forall_mem_cons.mp his
    have hfirst : Conveys shape absorb [(number, intPayload i)] (put [i]) := by
      have hregular : Field.Regular shape (number, intPayload i) :=
        ⟨hnumber.1, hnumber.2, varintOfInt_lt i⟩
      apply conveys_singleton hregular
      intro s
      show absorb s (number, .varint (varintOfInt i)) = _
      rw [habsorb, intOfVarint?_varintOfInt i hi]
      rfl
    have hall := hfirst.append (ih his)
    rw [funext fun s => hcons s i is] at hall
    exact hall

end

end

/-! ## Descriptions -/

namespace NumberDesc

/-- The description can be written: its lengths have 32 bits, and all its fields are known. -/
structure Storable (d : NumberDesc) : Prop where
  possibleLengths : ∀ i ∈ d.possibleLengths, IsInt32 i
  localLengths : ∀ i ∈ d.localLengths, IsInt32 i
  known : d.unknown = []

instance (d : NumberDesc) : Decidable d.Storable :=
  decidable_of_iff ((∀ i ∈ d.possibleLengths, IsInt32 i) ∧ (∀ i ∈ d.localLengths, IsInt32 i) ∧
    d.unknown = []) ⟨fun h => ⟨h.1, h.2.1, h.2.2⟩, fun h => ⟨h.1, h.2, h.3⟩⟩

variable {d : NumberDesc} (h : d.Storable)

include h

theorem Storable.conveys :
    Conveys shape absorb d.toFields fun s =>
      ⟨d.pattern.or s.pattern, s.possibleLengths ++ d.possibleLengths,
        s.localLengths ++ d.localLengths, d.example?.or s.example?, d.program.or s.program,
        s.unknown⟩ := by
  have hpattern : Conveys shape absorb (fieldOf 2 textPayload d.pattern) _ :=
    conveys_text (by decide) d.pattern (fun v s => { s with pattern := v.or s.pattern })
      (fun _ => rfl) rfl (fun _ _ => rfl)
  have hpossible : Conveys shape absorb (d.possibleLengths.map fun i => (9, intPayload i)) _ :=
    conveys_ints (by decide) (fun is s => { s with possibleLengths := s.possibleLengths ++ is })
      (by simp) (by simp) (fun _ _ => rfl) d.possibleLengths h.possibleLengths
  have hlocal : Conveys shape absorb (d.localLengths.map fun i => (10, intPayload i)) _ :=
    conveys_ints (by decide) (fun is s => { s with localLengths := s.localLengths ++ is })
      (by simp) (by simp) (fun _ _ => rfl) d.localLengths h.localLengths
  have hexample : Conveys shape absorb (fieldOf 6 textPayload d.example?) _ :=
    conveys_text (by decide) d.example? (fun v s => { s with example? := v.or s.example? })
      (fun _ => rfl) rfl (fun _ _ => rfl)
  have hprogram : Conveys shape absorb (fieldOf 12 Payload.bytes d.program) _ :=
    conveys_fieldOf 12 Payload.bytes d.program (fun v s => { s with program := v.or s.program })
      (fun _ => rfl) (fun _ _ => ⟨by omega, by omega, rfl⟩) (fun _ _ _ => rfl)
  have hall := (((hpattern.append hpossible).append hlocal).append hexample).append hprogram
  rw [toFields, h.known, List.append_nil]
  exact hall

/-- A description is read back. -/
theorem Storable.read_write (missing : Nat) (hlength : d.write.length < 2 ^ 32) :
    read? missing d.write = some d := by
  unfold read? ofFields? write
  rw [readFields_writeFields shape missing d.toFields h.conveys.regular hlength, Option.bind_some,
    h.conveys.absorbed]
  have hknown := h.known
  obtain ⟨pattern, possible, localOnly, example?, program, unknown⟩ := d
  simpa [empty] using hknown.symm

end NumberDesc

/-! ## Records -/

/-- One of the twelve descriptions of a record. -/
structure DescSlot where
  number : Nat
  get : Record → Option NumberDesc
  /-- The record with this description, if it is set. -/
  put : Option NumberDesc → Record → Record

/-- The field of this number is a part, and holds this description. -/
structure DescSlot.Lawful (slot : DescSlot) : Prop where
  number : 1 ≤ slot.number ∧ slot.number < 2 ^ 29
  part : Record.shape.isPart slot.number = true
  unset : ∀ s, slot.put none s = s
  absorb : ∀ (s : Record) bs missing, s.absorb (slot.number, .part bs missing) =
    (NumberDesc.read? missing bs).map fun d => slot.put (some d) s

namespace Record

/-- The descriptions, in declared order. -/
def descSlots : List DescSlot :=
  [⟨1, general, fun v s => { s with general := v.or s.general }⟩,
    ⟨2, fixedLine, fun v s => { s with fixedLine := v.or s.fixedLine }⟩,
    ⟨3, mobile, fun v s => { s with mobile := v.or s.mobile }⟩,
    ⟨4, tollFree, fun v s => { s with tollFree := v.or s.tollFree }⟩,
    ⟨5, premiumRate, fun v s => { s with premiumRate := v.or s.premiumRate }⟩,
    ⟨6, sharedCost, fun v s => { s with sharedCost := v.or s.sharedCost }⟩,
    ⟨7, personalNumber, fun v s => { s with personalNumber := v.or s.personalNumber }⟩,
    ⟨8, voip, fun v s => { s with voip := v.or s.voip }⟩,
    ⟨21, pager, fun v s => { s with pager := v.or s.pager }⟩,
    ⟨25, uan, fun v s => { s with uan := v.or s.uan }⟩,
    ⟨28, voicemail, fun v s => { s with voicemail := v.or s.voicemail }⟩,
    ⟨24, noInternationalDialling,
      fun v s => { s with noInternationalDialling := v.or s.noInternationalDialling }⟩]

theorem descSlots_lawful : ∀ slot ∈ descSlots, slot.Lawful := by
  intro slot h
  fin_cases h <;> exact ⟨by decide, rfl, fun _ => rfl, fun _ _ _ => rfl⟩

/-- The descriptions that are set. -/
def descs (r : Record) : List NumberDesc := descSlots.filterMap fun slot => slot.get r

/-- The record can be written: its integers have 32 bits, and all its fields are known. -/
structure Storable (r : Record) : Prop where
  descs : ∀ d ∈ r.descs, d.Storable
  callingCode : ∀ i ∈ r.callingCode?, IsInt32 i
  known : r.unknown = []

instance (r : Record) : Decidable r.Storable :=
  decidable_of_iff ((∀ d ∈ r.descs, d.Storable) ∧ (∀ i ∈ r.callingCode?, IsInt32 i) ∧
    r.unknown = []) ⟨fun h => ⟨h.1, h.2.1, h.2.2⟩, fun h => ⟨h.1, h.2, h.3⟩⟩

def descFields (slots : List DescSlot) (r : Record) : List Field :=
  slots.flatMap fun slot => fieldOf slot.number descPayload (slot.get r)

/-- The known fields besides the descriptions. -/
def plainFields (r : Record) : List Field :=
  fieldOf 9 textPayload r.id?
    ++ fieldOf 10 intPayload r.callingCode?
    ++ fieldOf 11 textPayload r.internationalLead
    ++ fieldOf 12 textPayload r.nationalLead
    ++ fieldOf 22 boolPayload r.mainCountryForCode
    ++ fieldOf 23 textPayload r.leadingDigits
    ++ fieldOf 32 boolPayload r.mobileNumberPortable
    ++ fieldOf 33 boolPayload r.sameMobileAndFixedLine

/-- The second record, with those of the descriptions that are set in the first. -/
def putDescs (slots : List DescSlot) (r s : Record) : Record :=
  slots.foldl (fun s slot => slot.put (slot.get r) s) s

/-- The second record, with the other known fields that are set in the first. -/
def putPlain (r s : Record) : Record :=
  { s with
    id? := r.id?.or s.id?
    callingCode? := r.callingCode?.or s.callingCode?
    internationalLead := r.internationalLead.or s.internationalLead
    nationalLead := r.nationalLead.or s.nationalLead
    mainCountryForCode := r.mainCountryForCode.or s.mainCountryForCode
    leadingDigits := r.leadingDigits.or s.leadingDigits
    mobileNumberPortable := r.mobileNumberPortable.or s.mobileNumberPortable
    sameMobileAndFixedLine := r.sameMobileAndFixedLine.or s.sameMobileAndFixedLine }

theorem putPlain_putDescs (r : Record) (h : r.unknown = []) :
    r.putPlain (r.putDescs descSlots empty) = r := by
  obtain ⟨⟩ := r
  simpa [putPlain, putDescs, descSlots, empty] using h.symm

theorem toFields_eq (r : Record) :
    r.toFields = r.descFields descSlots ++ r.plainFields ++ r.unknown := by
  unfold toFields descFields plainFields descSlots
  simp only [List.flatMap_cons, List.flatMap_nil]
  simp only [List.append_assoc, List.nil_append]

/-- A description is no longer than the record that it is in. -/
theorem length_write_le (r : Record) (d : NumberDesc) (h : d ∈ r.descs) :
    d.write.length ≤ r.write.length := by
  obtain ⟨slot, hslot, hd⟩ := List.mem_filterMap.mp h
  have hfield : (slot.number, .part d.write 0) ∈ r.toFields := by
    rw [toFields_eq, List.append_assoc]
    apply List.mem_append_left
    apply List.mem_flatMap.mpr ⟨slot, hslot, ?_⟩
    simp [fieldOf, hd, descPayload]
  exact length_part_le slot.number d.write 0 r.toFields hfield

section

variable {r : Record} (h : r.Storable)

theorem conveys_descFields (hread : ∀ d ∈ r.descs, NumberDesc.read? 0 d.write = some d)
    (slots : List DescSlot) (hslots : ∀ slot ∈ slots, slot ∈ descSlots) :
    Conveys shape absorb (r.descFields slots) (r.putDescs slots) := by
  induction slots with
  | nil => exact conveys_nil
  | cons slot slots ih =>
    obtain ⟨hslot, hslots⟩ := List.forall_mem_cons.mp hslots
    have hlawful := descSlots_lawful slot hslot
    have hfirst : Conveys shape absorb (fieldOf slot.number descPayload (slot.get r))
        (slot.put (slot.get r)) := by
      apply conveys_fieldOf slot.number descPayload _ slot.put hlawful.unset
      · exact fun d _ => ⟨hlawful.number.1, hlawful.number.2, hlawful.part, rfl⟩
      · intro d hd s
        have hset : d ∈ r.descs := List.mem_filterMap.mpr ⟨slot, hslot, hd⟩
        show s.absorb (slot.number, .part d.write 0) = _
        rw [hlawful.absorb, hread d hset]
        rfl
    exact hfirst.append (ih hslots)

include h

theorem Storable.conveys_plainFields : Conveys shape absorb r.plainFields r.putPlain := by
  have hid : Conveys shape absorb (fieldOf 9 textPayload r.id?) _ :=
    conveys_text (by decide) r.id? (fun v s => { s with id? := v.or s.id? })
      (fun _ => rfl) rfl (fun _ _ => rfl)
  have hcode : Conveys shape absorb (fieldOf 10 intPayload r.callingCode?) _ :=
    conveys_int (by decide) r.callingCode? h.callingCode
      (fun v s => { s with callingCode? := v.or s.callingCode? }) (fun _ => rfl) (fun _ _ => rfl)
  have hinternational : Conveys shape absorb (fieldOf 11 textPayload r.internationalLead) _ :=
    conveys_text (by decide) r.internationalLead
      (fun v s => { s with internationalLead := v.or s.internationalLead })
      (fun _ => rfl) rfl (fun _ _ => rfl)
  have hnational : Conveys shape absorb (fieldOf 12 textPayload r.nationalLead) _ :=
    conveys_text (by decide) r.nationalLead
      (fun v s => { s with nationalLead := v.or s.nationalLead })
      (fun _ => rfl) rfl (fun _ _ => rfl)
  have hmain : Conveys shape absorb (fieldOf 22 boolPayload r.mainCountryForCode) _ :=
    conveys_bool (by decide) r.mainCountryForCode
      (fun v s => { s with mainCountryForCode := v.or s.mainCountryForCode })
      (fun _ => rfl) (fun _ _ => rfl)
  have hleading : Conveys shape absorb (fieldOf 23 textPayload r.leadingDigits) _ :=
    conveys_text (by decide) r.leadingDigits
      (fun v s => { s with leadingDigits := v.or s.leadingDigits })
      (fun _ => rfl) rfl (fun _ _ => rfl)
  have hportable : Conveys shape absorb (fieldOf 32 boolPayload r.mobileNumberPortable) _ :=
    conveys_bool (by decide) r.mobileNumberPortable
      (fun v s => { s with mobileNumberPortable := v.or s.mobileNumberPortable })
      (fun _ => rfl) (fun _ _ => rfl)
  have hsame : Conveys shape absorb (fieldOf 33 boolPayload r.sameMobileAndFixedLine) _ :=
    conveys_bool (by decide) r.sameMobileAndFixedLine
      (fun v s => { s with sameMobileAndFixedLine := v.or s.sameMobileAndFixedLine })
      (fun _ => rfl) (fun _ _ => rfl)
  exact ((((((hid.append hcode).append hinternational).append hnational).append hmain).append
    hleading).append hportable).append hsame

/-- A record with an id is read back. -/
theorem Storable.read_write (hid : r.id?.isSome = true) (missing : Nat)
    (hlength : r.write.length < 2 ^ 32) : read? missing r.write = some r := by
  have hread : ∀ d ∈ r.descs, NumberDesc.read? 0 d.write = some d := by
    intro d hd
    have hle := r.length_write_le d hd
    exact (h.descs d hd).read_write 0 (by omega)
  have hconveys := (conveys_descFields hread descSlots fun _ hslot => hslot).append
    h.conveys_plainFields
  have hfields : r.descFields descSlots ++ r.plainFields = r.toFields := by
    rw [toFields_eq, h.known, List.append_nil]
  rw [hfields] at hconveys
  unfold read? ofFields? write
  rw [readFields_writeFields shape missing r.toFields hconveys.regular hlength, Option.bind_some,
    hconveys.absorbed]
  show (some (r.putPlain (r.putDescs descSlots empty))).filter _ = some r
  rw [r.putPlain_putDescs h.known]
  exact if_pos hid

end

end Record

/-! ## Collections -/

section

variable {rs : List Record} (hid : ∀ r ∈ rs, r.id?.isSome = true)

/-- The fields of a collection. -/
def recordFields (rs : List Record) : List Field := rs.map fun r => (1, .part r.write 0)

theorem mapM_recordOfField (hread : ∀ r ∈ rs, Record.read? 0 r.write = some r) :
    (recordFields rs).mapM recordOfField = some (rs.map some) := by
  induction rs with
  | nil => rfl
  | cons r rs ih =>
    obtain ⟨hr, hrs⟩ := List.forall_mem_cons.mp hread
    have hfirst : recordOfField (1, .part r.write 0) = some (some r) := by
      show (Record.read? 0 r.write).map some = _
      rw [hr]
      rfl
    rw [recordFields, List.map_cons, List.mapM_cons, hfirst]
    show (do let rest ← (recordFields rs).mapM recordOfField; pure (some r :: rest)) = _
    rw [ih hrs]
    rfl

include hid

theorem writeCollection_of_ids :
    writeCollection rs = some (writeFields (recordFields rs)) :=
  if_pos (List.all_eq_true.mpr hid)

theorem readCollection_write (hstorable : ∀ r ∈ rs, r.Storable) (bytes : List UInt8)
    (hwrite : writeCollection rs = some bytes) (hlength : bytes.length < 2 ^ 32) :
    readCollection bytes = some rs := by
  rw [writeCollection_of_ids hid] at hwrite
  obtain rfl := Option.some.inj hwrite
  have hread : ∀ r ∈ rs, Record.read? 0 r.write = some r := by
    intro r hr
    have hfield : (1, .part r.write 0) ∈ recordFields rs := List.mem_map.mpr ⟨r, hr, rfl⟩
    have hle := length_part_le 1 r.write 0 (recordFields rs) hfield
    exact (hstorable r hr).read_write (hid r hr) 0 (by omega)
  have hregular : ∀ f ∈ recordFields rs, f.Regular collectionShape := by
    intro f hf
    obtain ⟨r, -, rfl⟩ := List.mem_map.mp hf
    exact ⟨by omega, by omega, rfl, rfl⟩
  unfold readCollection readInput
  rw [readFields_writeFields collectionShape _ _ hregular hlength, Option.bind_some,
    mapM_recordOfField hread, Option.map_some, List.filterMap_map]
  exact congrArg some List.filterMap_some

end

/-- Records with an id survive their encoding, whatever else of them is set or not: they are read
back in order, where they take fewer than 2 ^ 31 bytes. -/
theorem parseCollection_write (mode : ParseMode) (rs : List Record) (hne : rs ≠ [])
    (hid : ∀ r ∈ rs, r.id?.isSome = true) (hstorable : ∀ r ∈ rs, r.Storable) :
    ∃ bytes, writeCollection rs = some bytes ∧
      (bytes.length < 2 ^ 31 → parseCollection mode (some bytes) = .ok rs) := by
  refine ⟨_, writeCollection_of_ids hid, fun hlength => ?_⟩
  have hread := readCollection_write hid hstorable _ (writeCollection_of_ids hid) (by omega)
  unfold parseCollection
  dsimp only
  rw [hread]
  cases rs with
  | nil => exact absurd rfl hne
  | cons r rs => rfl

/-- A length may be negative. -/
def negativeLength : NumberDesc :=
  { NumberDesc.empty with pattern := some "", possibleLengths := [-1, 15] }

def programOnly : NumberDesc := { NumberDesc.empty with program := some [0, 255] }

/-- Descriptions out of order, and fields that are set to their defaults. -/
def withDefaults : Record :=
  { Record.empty with
    id? := some ""
    callingCode? := some 0
    mainCountryForCode := some false
    voicemail := some negativeLength
    noInternationalDialling := some programOnly }

def withIdOnly : Record := { Record.empty with id? := some "é" }

theorem parseCollection_write_defaults :
    ∃ bytes, writeCollection [withDefaults, withIdOnly] = some bytes ∧ bytes.length < 2 ^ 31 ∧
      parseCollection .strict (some bytes) = .ok [withDefaults, withIdOnly] := by
  have hid : ∀ r ∈ [withDefaults, withIdOnly], r.id?.isSome = true := by decide
  have hstorable : ∀ r ∈ [withDefaults, withIdOnly], r.Storable := by decide
  obtain ⟨bytes, hwrite, hparse⟩ := parseCollection_write .strict [withDefaults, withIdOnly]
    (List.cons_ne_nil _ _) hid hstorable
  have hnegative : negativeLength.toFields =
      [(2, .bytes []), (9, .varint 18446744073709551615), (9, .varint 15)] := by decide +kernel
  have hprogram : programOnly.toFields = [(12, .bytes [0, 255])] := by decide +kernel
  have hdefaults : withDefaults.toFields =
      [(28, descPayload negativeLength), (24, descPayload programOnly), (9, .bytes []),
        (10, .varint 0), (22, .varint 0)] := by rfl
  have hidOnly : withIdOnly.toFields = [(9, .bytes [195, 169])] := by decide +kernel
  have hlength : bytes.length < 2 ^ 31 := by
    rw [writeCollection_of_ids hid] at hwrite
    obtain rfl := Option.some.inj hwrite
    simp [recordFields, Record.write, NumberDesc.write, descPayload, hdefaults, hidOnly, hnegative,
      hprogram, writeFields, writeField, writeTag, writeVarint]
  exact ⟨bytes, hwrite, hlength, hparse hlength⟩

end NumberPlan
