import Disasm6502.Proofs.Listing.Document

/-!
# Text listings told from JSON

The text listings hold nothing that the JSON listing does not hold: each is written anew from the value alone
that a JSON listing reads back as. This goes for every disassembly, whether its parts fit together or not.
-/
namespace Disasm6502

namespace Json

/-- The member of an object called `key`; null where there is none. -/
def field (key : String) : Json → Json
  | object members => (member? key members).getD null
  | _ => null

def text : Json → String
  | string s => s
  | _ => ""

def count : Json → Nat
  | number n => n
  | _ => 0

def elements : Json → List Json
  | array items => items
  | _ => []

/-- What is told of a value; nothing of null. -/
def unlessNull (tell : Json → String) : Json → String
  | null => ""
  | v => tell v

theorem unlessNull_ofOption {α : Type} {value : α → Json} (hvalue : ∀ a, value a ≠ .null)
    (tell : Json → String) (o : Option α) :
    (ofOption value o).unlessNull tell = (o.map fun a => tell (value a)).getD "" := by
  cases o with
  | none => rfl
  | some a =>
    have hsome : ofOption value (some a) = value a := rfl
    rw [hsome, Option.map_some, Option.getD_some]
    cases h : value a with
    | null => exact absurd h (hvalue a)
    | _ => rfl

end Json

namespace Retold

/-- The line of an item: instructions have a column for their bytes, and the others a colon at the address. -/
def itemLine (item : Json) : String :=
  let address := (item.field "address").text
  let bytes := (item.field "bytes").text
  let text := (item.field "text").text
  if (item.field "kind").text = "instruction" then address ++ "  " ++ padRight 8 bytes ++ "  " ++ text
  else address ++ ": " ++ bytes ++ " " ++ text

def segments (document : Json) : List Json :=
  (document.field "segments").elements

def itemCount (document : Json) : Nat :=
  total ((segments document).map fun s => (s.field "instructions").elements.length)

/-- A header and, as far as the document has them, its segments, trailing bytes and fault. -/
def whole (header : String) (segment trailing error : Json → String) (document : Json) : String :=
  header ++ String.join ((segments document).map segment) ++ (document.field "trailing").unlessNull trailing
    ++ (document.field "error").unlessNull error

namespace Human

def header (document : Json) : String :=
  "; File: " ++ (document.field "file").text ++ "\n; Format: " ++ (document.field "format").text ++ ", "
    ++ toString (segments document).length ++ " segment(s), " ++ toString (document.field "markers").count
    ++ " marker(s), " ++ toString (itemCount document) ++ " item(s)\n"

def segment (s : Json) : String :=
  "; Segment " ++ (s.field "start").text ++ "-" ++ (s.field "end").text ++ "\n"
    ++ String.join ((s.field "instructions").elements.map fun item => itemLine item ++ "\n") ++ ";\n"

def trailing (t : Json) : String :=
  "; Trailing data at offset " ++ toString (t.field "offset").count ++ ": " ++ (t.field "bytes").text ++ "\n"

def error (e : Json) : String :=
  "; Error: " ++ e.text ++ "\n"

end Human

namespace Short

def header (document : Json) : String :=
  "File: " ++ (document.field "file").text ++ " (" ++ (document.field "format").text ++ ", "
    ++ toString (document.field "markers").count ++ " marker(s))\n"

def segment (s : Json) : String :=
  "Segment: Start $" ++ (s.field "start").text ++ ", End $" ++ (s.field "end").text
    ++ ", Len " ++ toString (s.field "len").count ++ " bytes\n"

def trailing (t : Json) : String :=
  "Trailing data at " ++ toString (t.field "offset").count ++ ": " ++ (t.field "bytes").text ++ "\n"

def error (e : Json) : String :=
  "Error: " ++ e.text ++ "\n"

end Short

/-- The assembler listing of a document. -/
def human (verbose : Bool) (document : Json) : String :=
  whole (if verbose then Human.header document else "") Human.segment Human.trailing Human.error document

/-- The short listing of a document. -/
def short (quiet : Bool) (document : Json) : String :=
  whole (if quiet then "" else Short.header document) Short.segment Short.trailing Short.error document

theorem itemLine_item (x : Item) : itemLine (Document.item x) = x.line := by
  have haddress : ((Document.item x).field "address").text = Hex.upper 4 x.address.toNat := rfl
  have hbytes : ((Document.item x).field "bytes").text = Hex.spaced x.bytes := rfl
  have hkind : ((Document.item x).field "kind").text = x.kind := rfl
  have htext : ((Document.item x).field "text").text = x.text := rfl
  unfold itemLine
  rw [haddress, hbytes, hkind, htext]
  cases x with
  | instruction i => rfl
  | unknown address opcode =>
    have hopcode : Hex.spaced [opcode] = Hex.upper 2 opcode.toNat :=
      String.toList_inj.mp (Hex.toList_spaced_singleton opcode)
    simp [Item.kind, Item.line, Item.address, Item.bytes, Item.text, hopcode, String.append_assoc]
  | truncated address opcode bytes expectedLen =>
    simp [Item.kind, Item.line, Item.address, Item.bytes, Item.text, String.append_assoc]

section

variable (path : String) (d : Disassembly)

theorem segments_ofDisassembly : segments (Document.ofDisassembly path d) = d.segments.map Document.segment :=
  rfl

theorem itemCount_ofDisassembly : itemCount (Document.ofDisassembly path d) = d.itemCount := by
  have hinstructions : ∀ s, ((Document.segment s).field "instructions").elements.length = s.items.length :=
    fun s => List.length_map _
  simp [itemCount, segments_ofDisassembly, Disassembly.itemCount, Function.comp_def, hinstructions]

theorem whole_ofDisassembly (header : String) (segment trailing error : Json → String) :
    whole header segment trailing error (Document.ofDisassembly path d) =
      header ++ String.join (d.segments.map fun s => segment (Document.segment s))
        ++ (d.trailing.map fun t => trailing (Document.trailing t)).getD ""
        ++ (d.error.map fun e => error (.string e.message)).getD "" := by
  have htrailing : (Document.ofDisassembly path d).field "trailing" = .ofOption Document.trailing d.trailing := rfl
  have herror : (Document.ofDisassembly path d).field "error" =
      .ofOption (fun e => .string e.message) d.error := rfl
  have hsome : ∀ t, Document.trailing t ≠ .null := fun _ => nofun
  have hmessage : ∀ e : Fault, Json.string e.message ≠ .null := fun _ => nofun
  rw [whole, segments_ofDisassembly, List.map_map, htrailing, herror, Json.unlessNull_ofOption hsome,
    Json.unlessNull_ofOption hmessage]
  rfl

theorem human_header : Human.header (Document.ofDisassembly path d) = Disasm6502.Human.header path d := by
  unfold Human.header Disasm6502.Human.header
  rw [itemCount_ofDisassembly, segments_ofDisassembly, List.length_map]
  rfl

theorem short_header : Short.header (Document.ofDisassembly path d) = Disasm6502.Short.header path d := by
  unfold Short.header Disasm6502.Short.header
  rfl

end

theorem human_segment (s : DecodedSegment) : Human.segment (Document.segment s) = Disasm6502.Human.segment s := by
  have hitems : ((Document.segment s).field "instructions").elements = s.items.map Document.item := rfl
  have hstart : ((Document.segment s).field "start").text = Hex.upper 4 s.segment.start.toNat := rfl
  have hlast : ((Document.segment s).field "end").text = Hex.upper 4 s.segment.last.toNat := rfl
  unfold Human.segment Disasm6502.Human.segment Segment.range
  rw [hitems, hstart, hlast, List.map_map]
  simp [Function.comp_def, itemLine_item, String.append_assoc]

theorem short_segment (s : DecodedSegment) : Short.segment (Document.segment s) = Disasm6502.Short.segment s := by
  have hstart : ((Document.segment s).field "start").text = Hex.upper 4 s.segment.start.toNat := rfl
  have hlast : ((Document.segment s).field "end").text = Hex.upper 4 s.segment.last.toNat := rfl
  have hlen : ((Document.segment s).field "len").count = s.segment.len := rfl
  unfold Short.segment Disasm6502.Short.segment addressText
  rw [hstart, hlast, hlen, ← String.toList_inj]
  simp

theorem human_trailing (t : Trailing) : Human.trailing (Document.trailing t) = Disasm6502.Human.trailing t := by
  unfold Human.trailing Disasm6502.Human.trailing
  rfl

theorem short_trailing (t : Trailing) : Short.trailing (Document.trailing t) = Disasm6502.Short.trailing t := by
  unfold Short.trailing Disasm6502.Short.trailing
  rfl

theorem human_error (e : Fault) : Human.error (.string e.message) = Disasm6502.Human.error e := by
  unfold Human.error Disasm6502.Human.error
  rfl

theorem short_error (e : Fault) : Short.error (.string e.message) = Disasm6502.Short.error e := by
  unfold Short.error Disasm6502.Short.error
  rfl

theorem human_ofDisassembly (verbose : Bool) (path : String) (d : Disassembly) :
    human verbose (Document.ofDisassembly path d) = (Style.human verbose).listing path d := by
  simp only [human, whole_ofDisassembly, human_segment, human_trailing, human_error, human_header, Style.listing,
    Style.parts, Parts.text]
  cases verbose <;> rfl

theorem short_ofDisassembly (quiet : Bool) (path : String) (d : Disassembly) :
    short quiet (Document.ofDisassembly path d) = (Style.short quiet).listing path d := by
  simp only [short, whole_ofDisassembly, short_segment, short_trailing, short_error, short_header, Style.listing,
    Style.parts, Parts.text]
  cases quiet <;> rfl

end Retold

/-- Each text listing is told from the value of a JSON listing, with or without its header, and whatever the
spacing was. -/
theorem listings_retold (pretty : Bool) (path : String) (d : Disassembly) :
    ∃ document, Json.read? ((Style.json pretty).listing path d) = some document ∧
      (∀ verbose, Retold.human verbose document = (Style.human verbose).listing path d) ∧
        ∀ quiet, Retold.short quiet document = (Style.short quiet).listing path d :=
  ⟨Document.ofDisassembly path d, read?_listing pretty path d,
    fun verbose => Retold.human_ofDisassembly verbose path d,
    fun quiet => Retold.short_ofDisassembly quiet path d⟩

end Disasm6502
