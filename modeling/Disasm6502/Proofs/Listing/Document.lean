import Disasm6502.Listing
import Disasm6502.Proofs.CommandLine.Run
import Disasm6502.Proofs.Disassembly.Decoding
import Disasm6502.Proofs.Fault
import Disasm6502.Proofs.Json.RoundTrip
import Disasm6502.Proofs.Text

/-!
# JSON listings read back

Both spacings of a JSON listing read back as the value that was written. Without blank space the listing is one
line, so the lines of many listings are told apart; and the value holds all that was decoded.
-/
namespace Disasm6502

namespace Document

theorem natural_ofOption {α : Type} {value : α → Json} (h : ∀ a, (value a).Natural) (o : Option α) :
    (Json.ofOption value o).Natural := by
  cases o with
  | none => exact .null
  | some a => exact h a

theorem natural_item (x : Item) : (item x).Natural := by
  refine .object _ ?_
  simp only [List.forall_mem_cons]
  exact ⟨.string _, .string _, .string _, natural_ofOption (fun _ => .string _) _,
    natural_ofOption (fun _ => .string _) _, natural_ofOption (fun _ => .number _) _,
    natural_ofOption (fun _ => .string _) _, .string _, nofun⟩

theorem natural_segment (s : DecodedSegment) : (segment s).Natural := by
  have hitems : ∀ j ∈ s.items.map item, j.Natural := by
    intro j hj
    obtain ⟨x, -, rfl⟩ := List.mem_map.mp hj
    exact natural_item x
  refine .object _ ?_
  simp only [List.forall_mem_cons]
  exact ⟨.string _, .string _, .number _, .array _ hitems, nofun⟩

theorem natural_trailing (t : Trailing) : (trailing t).Natural := by
  refine .object _ ?_
  simp only [List.forall_mem_cons]
  exact ⟨.number _, .string _, nofun⟩

theorem natural_ofDisassembly (path : String) (d : Disassembly) : (ofDisassembly path d).Natural := by
  have hsegments : ∀ j ∈ d.segments.map segment, j.Natural := by
    intro j hj
    obtain ⟨s, -, rfl⟩ := List.mem_map.mp hj
    exact natural_segment s
  refine .object _ ?_
  simp only [List.forall_mem_cons]
  exact ⟨.string _, .string _, .number _, .array _ hsegments, natural_ofOption natural_trailing _,
    natural_ofOption (fun _ => .string _) _, nofun⟩

end Document

theorem listing_json (pretty : Bool) (path : String) (d : Disassembly) : (Style.json pretty).listing path d =
    (Document.ofDisassembly path d).render (if pretty then .indented else .compact) ++ "\n" := rfl

/-- A JSON listing reads back, in either spacing. -/
theorem read?_listing (pretty : Bool) (path : String) (d : Disassembly) :
    Json.read? ((Style.json pretty).listing path d) = some (Document.ofDisassembly path d) := by
  have hend : ∀ c ∈ "\n".toList, Json.isBlank c := by simp [Json.isBlank]
  rw [listing_json]
  cases pretty with
  | true => exact Json.read?_render Json.blank_indented (Document.natural_ofDisassembly path d) hend
  | false => exact Json.read?_render Json.blank_compact (Document.natural_ofDisassembly path d) hend

/-- The line of a listing without blank space, and where it ends. -/
theorem newline_not_mem_render (path : String) (d : Disassembly) :
    '\n' ∉ ((Document.ofDisassembly path d).render .compact).toList := by
  intro hmem
  have hprinted := Json.printed_chars_compact (Document.natural_ofDisassembly path d) 0 '\n' hmem
  exact absurd hprinted (by decide)

theorem toList_listing_compact (path : String) (d : Disassembly) : ((Style.json false).listing path d).toList =
    ((Document.ofDisassembly path d).render .compact).toList ++ ['\n'] := by
  rw [listing_json, String.toList_append]
  rfl

/-- The lines of listings without blank space are their documents; behind the last one stands no text. -/
theorem splitOn_join_listings (documents : List (String × Disassembly)) :
    (String.join (documents.map fun (path, d) => (Style.json false).listing path d)).toList.splitOn '\n' =
      documents.map (fun (path, d) => ((Document.ofDisassembly path d).render .compact).toList) ++ [[]] := by
  induction documents with
  | nil => rfl
  | cons document documents ih =>
    rw [List.map_cons, String.join_cons, String.toList_append, toList_listing_compact, List.append_assoc,
      List.singleton_append, List.splitOn_append_cons_self_of_not_mem (newline_not_mem_render _ _), ih]
    rfl

theorem read?_lines (documents : List (String × Disassembly)) :
    ((String.join (documents.map fun (path, d) => (Style.json false).listing path d)).toList.splitOn '\n').map
        (fun line => Json.read? (String.ofList line)) =
      documents.map (fun (path, d) => some (Document.ofDisassembly path d)) ++ [none] := by
  have hread : ∀ path d, Json.read? ((Document.ofDisassembly path d).render .compact) =
      some (Document.ofDisassembly path d) := by
    intro path d
    have h : Json.read? ((Document.ofDisassembly path d).render .compact ++ "") = _ :=
      Json.read?_render Json.blank_compact (Document.natural_ofDisassembly path d) nofun
    rwa [String.append_empty] at h
  have hempty : Json.read? (String.ofList []) = none := rfl
  rw [splitOn_join_listings, List.map_append, List.map_map, List.map_singleton, hempty, List.append_left_inj]
  refine List.map_congr_left fun (path, d) _ => ?_
  rw [Function.comp_apply, String.ofList_toList, hread]

theorem eq_of_map_eq {α β : Type} {f : α → β} {l l' : List α} (hinj : ∀ a ∈ l, ∀ b ∈ l', f a = f b → a = b)
    (h : l.map f = l'.map f) : l = l' := by
  induction l generalizing l' with
  | nil => exact (List.map_eq_nil_iff.mp h.symm).symm
  | cons a l ih =>
    cases l' with
    | nil => cases h
    | cons b l' =>
      obtain ⟨hhead, htail⟩ := List.cons.inj h
      have hfirst : a = b := hinj a List.mem_cons_self b List.mem_cons_self hhead
      rw [hfirst, ih (fun a ha b hb => hinj a (List.mem_cons_of_mem _ ha) b (List.mem_cons_of_mem _ hb)) htail]

theorem Format.text_inj {f g : Format} : f.text = g.text ↔ f = g := by
  constructor
  · intro h
    have hraw : ∀ base, (Format.raw base).text ≠ Format.xex.text := by
      intro base heq
      have hlist := congrArg String.toList heq
      unfold Format.text at hlist
      simp at hlist
    cases f with
    | xex =>
      cases g with
      | xex => rfl
      | raw base => exact absurd h.symm (hraw base)
    | raw base =>
      cases g with
      | xex => exact absurd h (hraw base)
      | raw base' =>
        unfold Format.text at h
        rw [String.append_right_inj, Hex.upper_inj, UInt16.toNat_inj] at h
        rw [h]
  · intro h
    rw [h]

namespace Document

theorem addressDigits_inj {v w : UInt16} (h : addressDigits v = addressDigits w) : v = w :=
  UInt16.toNat_inj.mp (Hex.upper_inj.mp (Json.string.inj h))

theorem ofOption_map {α β : Type} (value : β → Json) (f : α → β) (o : Option α) :
    Json.ofOption value (o.map f) = Json.ofOption (fun a => value (f a)) o := by
  cases o <;> rfl

theorem ofOption_inj {α : Type} (value : α → Json) (hnull : ∀ a, value a ≠ .null)
    (hinj : ∀ a b, value a = value b → a = b) {o o' : Option α}
    (h : Json.ofOption value o = Json.ofOption value o') : o = o' := by
  cases o <;> cases o'
  · rfl
  · exact absurd h.symm (hnull _)
  · exact absurd h (hnull _)
  · exact congrArg some (hinj _ _ h)

/-- Address and bytes alone settle an item that was decoded. -/
theorem item_inj {x y : Item} {base base' : UInt16} {bytes bytes' : List UInt8} (hx : x ∈ sweep base bytes)
    (hy : y ∈ sweep base' bytes') (h : item x = item y) : x = y := by
  simp only [item, Json.object.injEq, List.cons.injEq, Prod.mk.injEq, true_and, Json.string.injEq] at h
  obtain ⟨haddress, hbytes, -⟩ := h
  have hspaced : (Hex.spaced x.bytes).toList ++ [] = (Hex.spaced y.bytes).toList ++ [] := by rw [hbytes]
  obtain ⟨hbytes, -⟩ := Hex.spaced_append_inj (List.ne_nil_of_length_pos (Item.len_pos_of_mem_sweep hx))
    (List.ne_nil_of_length_pos (Item.len_pos_of_mem_sweep hy)) Hex.endsRow_nil Hex.endsRow_nil hspaced
  exact Item.eq_of_mem_sweep hx hy (addressDigits_inj haddress) hbytes

theorem segment_inj {s t : DecodedSegment} (hs : s.Swept) (ht : t.Swept) (h : segment s = segment t) : s = t := by
  simp only [segment, Json.object.injEq, List.cons.injEq, Prod.mk.injEq, true_and, Json.array.injEq] at h
  obtain ⟨hstart, hlast, -, hitems, -⟩ := h
  have hall : s.items = t.items :=
    eq_of_map_eq (fun _ hx _ hy => item_inj (hs.mem_sweep hx) (ht.mem_sweep hy)) hitems
  exact hs.ext ht (addressDigits_inj hstart) (addressDigits_inj hlast) hall

theorem trailing_inj {t t' : Trailing} (h : trailing t = trailing t') : t = t' := by
  simp only [trailing, Json.object.injEq, List.cons.injEq, Prod.mk.injEq, true_and, and_true,
    Json.number.injEq, Json.string.injEq, Hex.packed_inj] at h
  cases t
  cases t'
  cases h.1
  cases h.2
  rfl

/-- A document settles the path and all that its input was disassembled into. -/
theorem ofDisassembly_inj {path path' : String} {format format' : Format} {limit limit' : Option Nat}
    {bytes bytes' : List UInt8}
    (h : ofDisassembly path (Disassembly.ofBytes { format, limit, decode := true } bytes) =
      ofDisassembly path' (Disassembly.ofBytes ⟨format', limit', true⟩ bytes')) :
    path = path' ∧ Disassembly.ofBytes { format, limit, decode := true } bytes =
      Disassembly.ofBytes ⟨format', limit', true⟩ bytes' := by
  have hswept := fun s => @swept_of_mem_ofBytes format limit bytes s
  have hswept' := fun s => @swept_of_mem_ofBytes format' limit' bytes' s
  generalize hd : Disassembly.ofBytes { format, limit, decode := true } bytes = d at h hswept
  generalize hd' : Disassembly.ofBytes ⟨format', limit', true⟩ bytes' = d' at h hswept'
  simp only [ofDisassembly, Json.object.injEq, List.cons.injEq, Prod.mk.injEq, true_and, and_true,
    Json.string.injEq, Json.number.injEq, Json.array.injEq] at h
  obtain ⟨hpath, hformat, hmarkers, hsegments, htrailing, herror⟩ := h
  have hsegments' : d.segments = d'.segments :=
    eq_of_map_eq (fun s hs t ht => segment_inj (hswept s hs) (hswept' t ht)) hsegments
  have htrailing' : d.trailing = d'.trailing :=
    ofOption_inj trailing (fun _ => nofun) (fun _ _ => trailing_inj) htrailing
  have herror' : d.error = d'.error := by
    -- Only the message of a malformed header holds all there is to say of its fault.
    subst hd hd'
    rw [Disassembly.ofBytes, Disassembly.ofBytes, ofOption_map, ofOption_map] at herror
    exact congrArg (Option.map Fault.malformed) (ofOption_inj (fun m : Malformed => Json.string m.message)
      (fun _ => nofun) (fun _ _ hmessage => Malformed.message_inj.mp (Json.string.inj hmessage)) herror)
  refine ⟨hpath, ?_⟩
  cases d
  cases d'
  rw [Disassembly.mk.injEq]
  exact ⟨Format.text_inj.mp hformat, hsegments', htrailing', herror', hmarkers⟩

end Document

/-- Without blank space a listing is one line, whatever the path is, so that each line of a run is a document. In
either spacing a listing reads back as one value, which names the path; and listings of decoded inputs are the
same for the same path and disassembly alone. -/
theorem json_listing_faithful :
    (∀ path d, ((Style.json false).listing path d).toList.count '\n' = 1 ∧
      ((Style.json false).listing path d).toList.getLast? = some '\n') ∧
    (∀ (a : Arguments) (asked : Option Thresholds) (files : Files), a.style = .json false →
      ((a.run asked files).stdout.toList.splitOn '\n').map (fun line => Json.read? (String.ofList line)) =
        (a.listed files).map (fun (path, d) => some (Document.ofDisassembly path d)) ++ [none]) ∧
    (∀ path d, ∃ members,
      (∀ pretty, Json.read? ((Style.json pretty).listing path d) = some (.object members)) ∧
        Json.member? "file" members = some (.string path)) ∧
    ∀ (path path' : String) (format format' : Format) (limit limit' : Option Nat) (bytes bytes' : List UInt8),
      (Style.json false).listing path (Disassembly.ofBytes { format, limit, decode := true } bytes) =
          (Style.json false).listing path' (Disassembly.ofBytes ⟨format', limit', true⟩ bytes') →
        path = path' ∧ Disassembly.ofBytes { format, limit, decode := true } bytes =
          Disassembly.ofBytes ⟨format', limit', true⟩ bytes' := by
  refine ⟨fun path d => ?line, ?run, fun path d => ⟨_, fun pretty => read?_listing pretty path d, rfl⟩, ?same⟩
  case line =>
    have hnone := List.count_eq_zero_of_not_mem (newline_not_mem_render path d)
    rw [toList_listing_compact, List.count_append, hnone]
    exact ⟨rfl, List.getLast?_concat⟩
  case run =>
    intro a asked files hstyle
    rw [a.stdout_run, hstyle]
    exact read?_lines (a.listed files)
  case same =>
    intro path path' format format' limit limit' bytes bytes' h
    have hread := congrArg Json.read? h
    rw [read?_listing, read?_listing] at hread
    exact Document.ofDisassembly_inj (Option.some.inj hread)

/-- A run over a file with a marker in front, one with the marker behind, and none at all: the two that are
listed differ in their paths alone. -/
theorem json_listing_faithful_marker :
    let front := [0xFF, 0xFF, 0x00, 0x10, 0x02, 0x10, 0xA9, 0x05, 0x4C, 0x01]
    let behind := [0x00, 0x10, 0x02, 0x10, 0xA9, 0x05, 0x4C, 0xFF, 0xFF, 0x01]
    let files : Files := fun name =>
      if name = "a\n" then .ok front else if name = "b" then .ok behind else .error "gone"
    let a : Arguments := ⟨["a\n", "c", "b"], .json, false, 0, none, false, false, false⟩
    a.style = .json false ∧
      ((a.run none files).stdout.toList.splitOn '\n').map (fun line => Json.read? (String.ofList line)) =
        [some (Document.ofDisassembly "a\n" (Disassembly.ofBytes .standard front)),
          some (Document.ofDisassembly "b" (Disassembly.ofBytes .standard behind)), none] ∧
      (Style.json false).listing "a\n" (Disassembly.ofBytes .standard front) =
          (Style.json false).listing "a\n" (Disassembly.ofBytes .standard behind) ∧
        Disassembly.ofBytes .standard front = Disassembly.ofBytes .standard behind := by
  intro front behind files a
  obtain ⟨-, hrun, -, hsame⟩ := json_listing_faithful
  have hlisting : (Style.json false).listing "a\n" (Disassembly.ofBytes .standard front) =
      (Style.json false).listing "a\n" (Disassembly.ofBytes .standard behind) :=
    congrArg _ (by decide +kernel)
  obtain ⟨-, hdisassembly⟩ := hsame "a\n" "a\n" .xex .xex none none front behind hlisting
  exact ⟨rfl, hrun a none files rfl, hlisting, hdisassembly⟩

end Disasm6502
