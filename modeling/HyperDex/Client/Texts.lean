import HyperDex.Admin.Client
import HyperDex.Client.Arguments

/-!
# What HyperDex receives of a text

Names go to the library as C strings, values and elements with a length, and the
arguments of the admin client as copies that are read as C strings. A string is
passed with its own length or, as a C string, only if no NUL is in it. The bytes
of a symbol are taken up to the first NUL everywhere, and so are those of the
copies.
-/
namespace HyperDex.Client
open General Ruby Conversion

inductive Text where
  | symbol (name : Bytes)
  | string (bytes : Bytes)
  deriving DecidableEq, Repr

def Text.bytes : Text → Bytes
  | .symbol name => name
  | .string b => b

def Text.toValue : Text → Value
  | .symbol name => .symbol name
  | .string b => .string b

def textOf : Value → Option Text
  | .symbol name => some (.symbol name)
  | .string b => some (.string b)
  | _ => none

inductive TextUse where
  | name (use : NameUse)
  | key
  | value
  | element
  | addSpace
  | rmSpace
  deriving DecidableEq, Repr

def TextUse.InClient (use : TextUse) : Prop := use ≠ .addSpace ∧ use ≠ .rmSpace

def keepString : (p : Prim) → Bytes → p.Elem → Except DsReturnCode Bytes
  | .string, _, b => .ok b
  | .int64, kept, _ => .ok kept
  | .float, kept, _ => .ok kept

/-- `::FFI::MemoryPointer.from_string`: a copy with a NUL behind it. -/
def fromString (b : Bytes) : Bytes := b ++ [0]

/-- What the functions of the admin library read of the argument of a request. -/
def adminReceived : Admin.Request → Bytes
  | .listSpaces => []
  | .addSpace definition => cString (fromString definition)
  | .rmSpace name => cString (fromString name)

variable {Obj : Type} (ds : DataStructures Obj)

/-- The bytes that HyperDex receives of a text in its use, if the conversion does not raise. -/
def received (use : TextUse) (x : Text) : Conv Bytes :=
  match use with
  | .name use => do
    let name ← convertCstring x.toValue use.errorMessage
    return cString name
  | .key => do
    let key ← convertKey ds x.toValue
    return key.readString
  | .value => do
    let packed ← convertType ds x.toValue
    return packed.value.readString
  | .element => convertElemWith x.toValue [] keepString
  | .addSpace => .returned (adminReceived (.addSpace x.bytes))
  | .rmSpace => .returned (adminReceived (.rmSpace x.bytes))

/-- HyperDex receives all the bytes of the text, or the conversion raises. -/
def Whole (use : TextUse) (x : Text) : Prop :=
  (∃ e, received ds use x = .raised e) ∨ received ds use x = .returned x.bytes

/-- The symbol and the string with these bytes are passed on alike or both rejected. -/
def Alike (use : TextUse) (s : Bytes) : Prop :=
  (∃ b, received ds use (.symbol s) = .returned b ∧ received ds use (.string s) = .returned b) ∨
    ((∃ e, received ds use (.symbol s) = .raised e) ∧
      ∃ e, received ds use (.string s) = .raised e)

theorem cString_eq_self_iff {b : Bytes} : cString b = b ↔ (0 : UInt8) ∉ b := by
  constructor
  · intro h h0
    rw [← h] at h0
    simpa using List.mem_takeWhile_imp h0
  · exact cString_of_nulFree b

theorem cString_append_nul (b : Bytes) : cString (b ++ [0]) = cString b := by
  induction b with
  | nil => rfl
  | cons x b ih =>
    rw [cString, List.cons_append, List.takeWhile_cons, ← cString, ih, cString, cString,
      List.takeWhile_cons]

/-- The text has no NUL, or it is a string used in the client. -/
def Passes (use : TextUse) (x : Text) : Prop :=
  (0 : UInt8) ∉ x.bytes ∨ (use.InClient ∧ ∃ b, x = .string b)

variable {ds}

theorem received_string_admin {use : TextUse} (huse : ¬ use.InClient) (s : Bytes) :
    received ds use (.string s) = .returned (cString s) := by
  cases use with
  | addSpace => exact congrArg Outcome.returned (cString_append_nul s)
  | rmSpace => exact congrArg Outcome.returned (cString_append_nul s)
  | _ => exact absurd ⟨by simp, by simp⟩ huse

section Uses
variable (hcopy : ∀ b, ∃ buf, ds.copyString b = some buf ∧ buf.readString = b)

include hcopy

theorem received_symbol (use : TextUse) (s : Bytes) :
    received ds use (.symbol s) = .returned (cString s) := by
  rcases hcopy (cString s) with ⟨buf, hbuf, hread⟩
  cases use with
  | name use => rfl
  | key =>
    simp only [received, Text.toValue, convertKey, convertType, copied, hbuf, orOutOfMemory]
    exact congrArg Outcome.returned hread
  | value =>
    simp only [received, Text.toValue, convertType, copied, hbuf, orOutOfMemory]
    exact congrArg Outcome.returned hread
  | element => rfl
  | addSpace => exact congrArg Outcome.returned (cString_append_nul s)
  | rmSpace => exact congrArg Outcome.returned (cString_append_nul s)

/-- A string is received whole in the client, or it is a name with a NUL. -/
theorem received_string {use : TextUse} (huse : use.InClient) (s : Bytes) :
    received ds use (.string s) = .returned s ∨
      ((0 : UInt8) ∈ s ∧ ∃ e, received ds use (.string s) = .raised e) := by
  rcases hcopy s with ⟨buf, hbuf, hread⟩
  cases use with
  | name use =>
    by_cases h0 : (0 : UInt8) ∈ s
    · refine .inr ⟨h0, .core .argumentError "string contains null byte", ?_⟩
      simp [received, Text.toValue, convertCstring, h0]
    · left
      simp [received, Text.toValue, convertCstring, h0, cString_of_nulFree]
  | key =>
    simp only [received, Text.toValue, convertKey, convertType, copied, hbuf, orOutOfMemory]
    exact .inl (congrArg Outcome.returned hread)
  | value =>
    simp only [received, Text.toValue, convertType, copied, hbuf, orOutOfMemory]
    exact .inl (congrArg Outcome.returned hread)
  | element => exact .inl rfl
  | addSpace => exact absurd rfl huse.1
  | rmSpace => exact absurd rfl huse.2

theorem whole_iff (use : TextUse) (x : Text) : Whole ds use x ↔ Passes use x := by
  have htruncated (s : Bytes) (hx : received ds use x = .returned (cString s))
      (hs : x.bytes = s) : Whole ds use x ↔ (0 : UInt8) ∉ x.bytes := by
    rw [Whole, hx, hs, ← cString_eq_self_iff]
    simp
  cases x with
  | symbol s =>
    rw [htruncated s (received_symbol hcopy use s) rfl, Passes]
    simp
  | string s =>
    by_cases huse : use.InClient
    · refine iff_of_true ?_ (.inr ⟨huse, s, rfl⟩)
      exact (received_string hcopy huse s).symm.imp And.right id
    · rw [htruncated s (received_string_admin huse s) rfl, Passes]
      simp [huse]

theorem alike_iff {use : TextUse} (huse : use.InClient) (s : Bytes) :
    Alike ds use s ↔ (0 : UInt8) ∉ s := by
  rw [Alike, received_symbol hcopy, ← cString_eq_self_iff]
  rcases received_string hcopy huse s with hs | ⟨h0, e, he⟩
  · simp [hs, eq_comm]
  · simp [he, cString_eq_self_iff, h0]

end Uses

def elements : Value → List Value
  | .array xs | .set xs | .object (.ok (.array xs)) => xs
  | .hash pairs => pairs.flatMap fun p => [p.1, p.2]
  | _ => []

def valueTexts (use : TextUse) (x : Value) : List (TextUse × Text) :=
  (textOf x).toList.map (Prod.mk use) ++
    (elements x).filterMap fun e => (textOf e).map (Prod.mk .element)

def Step.texts : Step → List (TextUse × Text)
  | .name use x => (textOf x).toList.map (Prod.mk (.name use))
  | .key x => valueTexts .key x
  | .value x => valueTexts .value x
  | _ => []

def mapattributesTexts : Value → List (TextUse × Text)
  | .hash pairs => pairs.flatMap fun p =>
    match p.2 with
    | .hash inner => inner.flatMap fun q =>
        Step.texts (.name .attribute p.1) ++ Step.texts (.value q.1) ++ Step.texts (.value q.2)
    | _ => []
  | _ => []

variable (ds) in
def Call.texts (call : Call) : List (TextUse × Text) :=
  (call.steps ds).flatMap Step.texts ++ call.mapattributes.elim [] mapattributesTexts

theorem toValue_of_textOf {x : Value} {t : Text} (h : textOf x = some t) : x = t.toValue := by
  cases x with
  | symbol name =>
    obtain rfl := Option.some.inj h
    rfl
  | string b =>
    obtain rfl := Option.some.inj h
    rfl
  | _ => cases h

variable (ds) in
theorem convertElemWith_text {Container : Type} (x : Text) (container : Container)
    (f : (p : Prim) → Container → p.Elem → Except DsReturnCode Container) :
    ∃ b, received ds .element x = .returned b ∧
      convertElemWith x.toValue container f = elemResult "string" (f .string container b) := by
  cases x with
  | symbol name => exact ⟨cString name, rfl, rfl⟩
  | string b => exact ⟨b, rfl, rfl⟩

theorem valueTexts_received {use : TextUse} {x : Value}
    (h : ∀ t : Text, x = t.toValue → ∃ b, received ds use t = .returned b) :
    ∀ t ∈ valueTexts use x, ∃ b, received ds t.1 t.2 = .returned b := by
  intro t ht
  rcases List.mem_append.mp ht with ht | ht
  · rcases List.mem_map.mp ht with ⟨text, htext, rfl⟩
    exact h text (toValue_of_textOf (Option.mem_toList.mp htext))
  · rcases List.mem_filterMap.mp ht with ⟨e, -, he⟩
    rcases Option.map_eq_some_iff.mp he with ⟨text, -, rfl⟩
    rcases convertElemWith_text ds text [] keepString with ⟨b, hb, -⟩
    exact ⟨b, hb⟩

/-- A step that returns has passed on its texts. -/
theorem Step.texts_received {s : Step} (h : s.run ds = .returned ()) :
    ∀ t ∈ s.texts, ∃ b, received ds t.1 t.2 = .returned b := by
  cases s with
  | name use x =>
    intro t ht
    rcases List.mem_map.mp ht with ⟨text, htext, rfl⟩
    obtain rfl := toValue_of_textOf (Option.mem_toList.mp htext)
    rcases Outcome.ending_eq_returned.mp h with ⟨name, hname⟩
    exact ⟨cString name, by simp [received, hname]⟩
  | key x =>
    rcases Outcome.ending_eq_returned.mp h with ⟨key, hkey⟩
    refine valueTexts_received fun text htext => ⟨key.readString, ?_⟩
    rw [htext] at hkey
    simp [received, hkey]
  | value x =>
    rcases Outcome.ending_eq_returned.mp h with ⟨packed, hpacked⟩
    refine valueTexts_received fun text htext => ⟨packed.value.readString, ?_⟩
    rw [htext] at hpacked
    simp [received, hpacked]
  | _ => simp [texts]

/-- A call whose conversion returns has passed on all its texts: it raises if one is refused. -/
theorem Call.texts_received {rounds : ℕ} {call : Call} {args : List Argument}
    (h : call.convert ds rounds = .returned args) :
    ∀ t ∈ call.texts ds, ∃ b, received ds t.1 t.2 = .returned b := by
  have hending := Outcome.ending_eq_returned.mpr ⟨args, h⟩
  rw [convert_ending] at hending
  rcases Outcome.bind_eq_returned.mp hending with ⟨_, hsteps, hmap⟩
  intro t ht
  rcases List.mem_append.mp ht with ht | ht
  · rcases List.mem_flatMap.mp ht with ⟨s, hs, ht⟩
    refine Step.texts_received ?_ t ht
    exact List.forall_mem_map.mp (Outcome.sequence_eq_returned.mp hsteps) s hs
  · cases hx : call.mapattributes with
    | none =>
      rw [hx] at ht
      cases ht
    | some x =>
      rw [hx] at ht hmap
      rcases Outcome.ending_eq_returned.mp hmap with ⟨result, hresult⟩
      rcases convertMapattributes_returned ds hresult with ⟨pairs, rfl, hempty⟩
      -- map attributes are converted only where there are none
      rcases List.mem_flatMap.mp ht with ⟨p, hp, ht⟩
      rw [hempty p hp] at ht
      cases ht

/-- Texts are received whole or refused, symbols and strings alike, and a call with a refused
text is not made, exactly where no NUL is cut off with what follows it. -/
theorem texts_law (hcopy : ∀ b, ∃ buf, ds.copyString b = some buf ∧ buf.readString = b) :
    (∀ use x, Whole ds use x ↔ Passes use x) ∧
      (∀ use : TextUse, use.InClient → ∀ s, Alike ds use s ↔ (0 : UInt8) ∉ s) ∧
      ∀ rounds (call : Call) args, call.convert ds rounds = .returned args →
        ∀ t ∈ call.texts ds, ∃ b, received ds t.1 t.2 = .returned b :=
  ⟨whole_iff hcopy, fun _ huse => alike_iff hcopy huse, fun _ _ _ => Call.texts_received⟩

theorem texts_law_packedFormat :
    Whole packedFormat .key (.string [97, 0, 98]) ∧ Alike packedFormat .key [97, 98] := by
  have hlaw := texts_law packedFormat_lawful.copyString
  refine ⟨(hlaw.1 .key _).mpr (.inr ⟨?_, _, rfl⟩), (hlaw.2.1 .key ?_ _).mpr (by decide)⟩ <;>
    exact ⟨by decide, by decide⟩

/-- `del("s", :"a\0b")` deletes under the key `a`, and `rm_space("a\0b")` removes the space `a`. -/
theorem symbol_shortened :
    (Call.spacenameKeyStatus (.string [115]) (.symbol [97, 0, 98])).convert packedFormat 0 =
        .returned [.space [115], .key (Buffer.ofBytes [97])] ∧
      ¬ Whole packedFormat .key (.symbol [97, 0, 98]) ∧
      ¬ Alike packedFormat .key [97, 0, 98] ∧
      adminReceived (.rmSpace [97, 0, 98]) = [97] ∧
      ¬ Whole packedFormat .rmSpace (.string [97, 0, 98]) := by
  have hkey : received packedFormat .key (.symbol [97, 0, 98]) = .returned [97] := rfl
  have hstring : received packedFormat .key (.string [97, 0, 98]) = .returned [97, 0, 98] := rfl
  have hspace : received packedFormat .rmSpace (.string [97, 0, 98]) = .returned [97] := rfl
  refine ⟨rfl, ?_, ?_, rfl, ?_⟩
  · simp [Whole, hkey, Text.bytes]
  · simp [Alike, hkey, hstring]
  · simp [Whole, hspace, Text.bytes]

end HyperDex.Client
