import Disasm6502.CommandLine.Draft
import Disasm6502.Proofs.Numeral

/-!
# What a draft holds

However arguments come, a draft holds names that are not empty and a count that fits its 64 bits: both are
checked where they are taken. So a request for a run has these too, and a file to be run on.
-/
namespace Disasm6502

/-- Steps in a row succeed only if the first does, and the others go on from there. -/
theorem exists_ok_of_bind {ε α β : Type} {x : Except ε α} {f : α → Except ε β} {b : β} (h : x >>= f = .ok b) :
    ∃ a, x = .ok a ∧ f a = .ok b := by
  cases x with
  | error e => cases h
  | ok a => exact ⟨a, rfl, h⟩

theorem ok_bind {ε α β : Type} (a : α) (f : α → Except ε β) : (Except.ok a >>= f) = f a :=
  rfl

namespace Arguments

/-- What is asked of a run: files with names, and a count that can be written down. -/
structure Proper (a : Arguments) : Prop where
  files : a.files ≠ []
  names : ∀ name ∈ a.files, name ≠ ""
  count : ∀ n, a.maxSegments = some n → n < UInt64.size

theorem parseMaxSegments_lt {value : String} {n : Nat} (h : parseMaxSegments value = .ok n) :
    n < UInt64.size := by
  unfold parseMaxSegments at h
  cases hread : Numeral.readCount value with
  | error flaw =>
    rw [hread] at h
    cases h
  | ok m =>
    rw [hread] at h
    cases h
    exact Numeral.readCount_lt hread

/-- The base of a run: the one that was given, or else what the environment says. -/
def Draft.baseOr (defaultBase : Option String) (d : Draft) : Except UsageError UInt16 :=
  match d.base, defaultBase with
  | some base, _ => .ok base
  | none, some value => parseBase value
  | none, none => .ok 0

/-- The request of a draft with nothing open. -/
def Draft.request (d : Draft) (base : UInt16) : Except UsageError Request :=
  if d.files.isEmpty then .error .noFiles
  else
    .ok <| .run
      { files := d.files
        format := d.format.getD .human
        raw := d.switches.contains .raw
        base
        maxSegments := d.maxSegments
        pretty := d.switches.contains .pretty
        verbose := d.switches.contains .verbose
        quiet := d.switches.contains .quiet }

theorem Draft.finish_eq (d : Draft) (defaultBase : Option String) :
    d.finish defaultBase = d.close >>= fun d => d.baseOr defaultBase >>= d.request := by
  unfold Draft.finish Draft.baseOr
  congr
  funext closed
  cases closed.base with
  | some base => rfl
  | none => cases defaultBase <;> rfl

/-- A draft that may become a proper request: files still open are not counted in. -/
structure Draft.Sound (d : Draft) : Prop where
  names : ∀ name ∈ d.files, name ≠ ""
  count : ∀ n, d.maxSegments = some n → n < UInt64.size

/-- A draft that goes on is sound, and a request for a run is proper. -/
def Progress.Sound : Progress → Prop
  | more d => d.Sound
  | done request => ∀ a, request = .run a → a.Proper

namespace Draft.Sound

variable {d d' : Draft}

theorem empty : Draft.empty.Sound :=
  ⟨nofun, nofun⟩

/-- Only files and the count matter. -/
theorem congr (hd : d.Sound) (hfiles : d'.files = d.files) (hcount : d'.maxSegments = d.maxSegments) :
    d'.Sound := by
  refine ⟨?_, ?_⟩
  · rw [hfiles]
    exact hd.names
  · rw [hcount]
    exact hd.count

theorem set {s : Setting} {value : String} (hd : d.Sound) (h : d.set s value = .ok d') : d'.Sound := by
  unfold Draft.set at h
  split at h
  case isTrue => cases h
  case isFalse =>
    cases s with
    | format =>
      obtain ⟨f, -, h⟩ := exists_ok_of_bind h
      cases h
      exact hd.congr rfl rfl
    | base =>
      obtain ⟨base, -, h⟩ := exists_ok_of_bind h
      cases h
      exact hd.congr rfl rfl
    | maxSegments =>
      obtain ⟨n, hn, h⟩ := exists_ok_of_bind h
      cases h
      refine ⟨hd.names, fun m hm => ?_⟩
      cases hm
      exact parseMaxSegments_lt hn

theorem close (hd : d.Sound) (h : d.close = .ok d') : d'.Sound := by
  unfold Draft.close at h
  split at h
  case h_1 =>
    cases h
    exact hd
  case h_2 => cases h
  case h_3 s value _ =>
    have hclosed : Sound { d with pending := .nothing } := hd.congr rfl rfl
    exact hclosed.set h
  case h_4 names _ =>
    split at h
    case isTrue => cases h
    case isFalse hnames =>
      cases h
      -- A row of files is checked for empty names where it is closed, and nowhere else.
      refine ⟨fun name hname => ?_, hd.count⟩
      rcases List.mem_append.mp hname with hmem | hmem
      · exact hd.names name hmem
      · rintro rfl
        exact hnames (List.any_eq_true.mpr ⟨"", hmem, rfl⟩)

theorem switchOn {s : Switch} (hd : d.Sound) (h : d.switchOn s = .ok d') : d'.Sound := by
  obtain ⟨closed, hclose, h⟩ := exists_ok_of_bind h
  split at h
  case isTrue => cases h
  case isFalse =>
    cases h
    exact (hd.close hclose).congr rfl rfl

theorem named {n : Named} {attached : Option String} {p : Progress} (hd : d.Sound)
    (h : d.named n attached = .ok p) : p.Sound := by
  unfold Draft.named at h
  split at h
  case h_1 =>
    obtain ⟨closed, hclose, h⟩ := exists_ok_of_bind h
    obtain ⟨filled, hset, h⟩ := exists_ok_of_bind h
    cases h
    exact (hd.close hclose).set hset
  case h_2 =>
    obtain ⟨closed, hclose, h⟩ := exists_ok_of_bind h
    cases h
    exact (hd.close hclose).congr rfl rfl
  case h_3 => cases h
  case h_4 =>
    obtain ⟨switched, hswitch, h⟩ := exists_ok_of_bind h
    cases h
    exact hd.switchOn hswitch
  case h_5 =>
    obtain ⟨_, -, h⟩ := exists_ok_of_bind h
    cases h
    exact nofun
  case h_6 =>
    obtain ⟨_, -, h⟩ := exists_ok_of_bind h
    cases h
    exact nofun

theorem long {text : List Char} {p : Progress} (hd : d.Sound) (h : d.long text = .ok p) : p.Sound := by
  unfold Draft.long at h
  dsimp only at h
  cases hname : Named.ofLong? (String.ofList (text.takeWhile (· != '='))) with
  | none =>
    rw [hname] at h
    cases h
  | some n =>
    rw [hname] at h
    exact hd.named h

theorem letters {text : List Char} {p : Progress} (hd : d.Sound) (h : d.letters text = .ok p) : p.Sound := by
  induction text generalizing d with
  | nil =>
    cases h
    exact hd
  | cons letter rest ih =>
    unfold Draft.letters at h
    split at h
    case h_1 => cases h
    case h_2 =>
      obtain ⟨switched, hswitch, h⟩ := exists_ok_of_bind h
      exact ih (hd.switchOn hswitch) h
    case h_3 => split at h <;> exact hd.named h

theorem file {name : String} (hd : d.Sound) (h : d.file name = .ok d') : d'.Sound := by
  unfold Draft.file at h
  split at h
  case h_1 =>
    cases h
    exact hd.congr rfl rfl
  case h_2 =>
    obtain ⟨closed, hclose, h⟩ := exists_ok_of_bind h
    cases h
    exact (hd.close hclose).congr rfl rfl

theorem plain {text : String} (hd : d.Sound) (h : d.plain text = .ok d') : d'.Sound := by
  unfold Draft.plain at h
  split at h
  case h_1 =>
    cases h
    exact hd.congr rfl rfl
  case h_2 => exact hd.file h

theorem filesOnly {names : List String} (hd : d.Sound) (h : d.filesOnly names = .ok d') : d'.Sound := by
  induction names generalizing d with
  | nil =>
    cases h
    exact hd
  | cons name names ih =>
    obtain ⟨opened, hfile, h⟩ := exists_ok_of_bind h
    exact ih (hd.file hfile) h

theorem finish {defaultBase : Option String} {a : Arguments} (hd : d.Sound)
    (h : d.finish defaultBase = .ok (.run a)) : a.Proper := by
  rw [finish_eq] at h
  obtain ⟨closed, hclose, h⟩ := exists_ok_of_bind h
  obtain ⟨base, -, h⟩ := exists_ok_of_bind h
  have hclosed := hd.close hclose
  unfold Draft.request at h
  split at h
  case isTrue => cases h
  case isFalse hfiles =>
    cases h
    exact ⟨fun hnil => hfiles (List.isEmpty_iff.mpr hnil), hclosed.names, hclosed.count⟩

theorem takeAll {defaultBase : Option String} {arguments : List String} {a : Arguments} (hd : d.Sound)
    (h : d.takeAll defaultBase arguments = .ok (.run a)) : a.Proper := by
  induction arguments generalizing d with
  | nil => exact hd.finish h
  | cons argument rest ih =>
    -- The first alternative that goes on does so with what one step made of the draft.
    have hgoes : ∀ {p : Progress}, p.Sound →
        (match p with
          | .more d => d.takeAll defaultBase rest
          | .done request => return request) = .ok (.run a) → a.Proper := by
      intro p hp h
      cases p with
      | more d => exact ih hp h
      | done request =>
        cases h
        exact hp a rfl
    unfold Draft.takeAll at h
    split at h
    case h_1 =>
      obtain ⟨opened, hopened, h⟩ := exists_ok_of_bind h
      exact (hd.filesOnly hopened).finish h
    case h_2 =>
      obtain ⟨p, hp, h⟩ := exists_ok_of_bind h
      exact hgoes (hd.long hp) h
    case h_3 =>
      obtain ⟨p, hp, h⟩ := exists_ok_of_bind h
      exact hgoes (hd.letters hp) h
    case h_4 =>
      obtain ⟨opened, hopened, h⟩ := exists_ok_of_bind h
      exact ih (hd.plain hopened) h

end Draft.Sound

/-- A request for a run can only be a proper one. -/
theorem proper_of_parse {arguments : List String} {defaultBase : Option String} {a : Arguments}
    (h : parse arguments defaultBase = .ok (.run a)) : a.Proper :=
  Draft.Sound.empty.takeAll h

end Arguments

end Disasm6502
