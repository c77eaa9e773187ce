import DeskCalculator.Proofs.Window.History
import DeskCalculator.Settings.File

/-!
# What a settings file gives

A file either gives nothing at all, and then the standard settings hold, or each setting is read from its
own key or is the standard one. Its history never grows beyond a hundred rows and holds the last result.
-/

namespace DeskCalculator

open Toml

/-! ## Typed items -/

namespace Settings

/-- The names of the modes in a file. -/
def modeNames : List (String × AngleMode) :=
  [("degrees", .degrees), ("deg", .degrees), ("radians", .radians), ("rad", .radians)]

/-- The item is the name of the mode, or a table with the name as its only key and nothing under it. -/
inductive IsMode : Item → AngleMode → Prop
  | named {name mode} : (name, mode) ∈ modeNames → IsMode (.string name) mode
  | emptyTable {name mode kind kind'} :
      (name, mode) ∈ modeNames → IsMode (.table kind [(name, .table kind' [])]) mode
  | emptyArray {name mode kind} :
      (name, mode) ∈ modeNames → IsMode (.table kind [(name, .array [])]) mode

/-- The item is a number that fits into 64 bits. -/
inductive IsCount : Item → Nat → Prop
  | integer {n : Nat} : n < UInt64.size → IsCount (.integer n) n

inductive IsSwitch : Item → Bool → Prop
  | boolean (b : Bool) : IsSwitch (.boolean b) b

theorem modeNamed?_eq_some_iff {name : String} {mode : AngleMode} :
    modeNamed? name = some mode ↔ (name, mode) ∈ modeNames := by
  constructor
  · intro h
    unfold modeNamed? at h
    split at h <;> cases h <;> decide
  · intro h
    simp only [modeNames, List.mem_cons, Prod.mk.injEq, List.not_mem_nil, or_false] at h
    rcases h with ⟨rfl, rfl⟩ | ⟨rfl, rfl⟩ | ⟨rfl, rfl⟩ | ⟨rfl, rfl⟩ <;> rfl

theorem modeOf?_eq_some_iff {item : Item} {mode : AngleMode} :
    modeOf? item = some mode ↔ IsMode item mode := by
  constructor
  · intro h
    unfold modeOf? at h
    split at h
    · exact .named (modeNamed?_eq_some_iff.mp h)
    · split at h
      · rename_i name content hollow
        have hname := modeNamed?_eq_some_iff.mp h
        unfold isHollow at hollow
        split at hollow
        · exact .emptyTable hname
        · exact .emptyArray hname
        · cases hollow
      · cases h
    · cases h
  · rintro (hn | hn | hn) <;> exact modeNamed?_eq_some_iff.mpr hn

theorem countOf?_eq_some_iff {item : Item} {n : Nat} : countOf? item = some n ↔ IsCount item n := by
  constructor
  · intro h
    unfold countOf? at h
    split at h
    · rename_i i
      split at h
      · rename_i hi
        obtain rfl := Option.some.inj h
        have hcount : IsCount (.integer i.toNat) i.toNat := .integer hi.2
        rwa [Int.toNat_of_nonneg hi.1] at hcount
      · cases h
    · cases h
  · rintro ⟨hn⟩
    simp [countOf?, hn]

theorem switchOf?_eq_some_iff {item : Item} {b : Bool} : switchOf? item = some b ↔ IsSwitch item b := by
  constructor
  · intro h
    unfold switchOf? at h
    split at h
    · obtain rfl := Option.some.inj h
      exact .boolean _
    · cases h
  · rintro ⟨⟩
    rfl

/-! ## Keys -/

/-- What a key says: its item as it is typed, or the standard value where the key is missing. -/
inductive Says {α : Type} (typed : Item → α → Prop) (standard : α) (entries : Entries) (key : String) :
    α → Prop
  | written {item x} : entries.lookup key = some item → typed item x → Says typed standard entries key x
  | missing : entries.lookup key = none → Says typed standard entries key standard

/-- The item of the key is of another type. -/
def IllTyped {α : Type} (typed : Item → α → Prop) (entries : Entries) (key : String) : Prop :=
  ∃ item, entries.lookup key = some item ∧ ∀ x, ¬ typed item x

section

variable {α : Type} {typed : Item → α → Prop} {read : Item → Option α} {standard : α} {entries : Entries}
  {key : String} (hread : ∀ {item x}, read item = some x ↔ typed item x)
include hread

theorem valueAt?_eq_some_iff {x : α} :
    valueAt? entries key read standard = some x ↔ Says typed standard entries key x := by
  unfold valueAt?
  constructor
  · intro h
    split at h
    · exact .written ‹_› (hread.mp h)
    · obtain rfl := Option.some.inj h
      exact .missing ‹_›
  · rintro (⟨hl, hx⟩ | hl)
    · simp only [hl]
      exact hread.mpr hx
    · simp only [hl]

/-- Nothing but its own item decides what a key says. -/
theorem Says.unique {entries' : Entries} {x y : α} (hx : Says typed standard entries key x)
    (hy : Says typed standard entries' key y) (hl : entries.lookup key = entries'.lookup key) :
    x = y := by
  have hx := (valueAt?_eq_some_iff hread).mpr hx
  have hy := (valueAt?_eq_some_iff hread).mpr hy
  rw [valueAt?, ← hl] at hy
  exact Option.some.inj (hx.symm.trans hy)

variable (standard) in
theorem valueAt?_eq_none_iff :
    valueAt? entries key read standard = none ↔ IllTyped typed entries key := by
  unfold valueAt?
  constructor
  · intro h
    split at h
    · exact ⟨_, ‹_›, fun x hx => by simp [hread.mpr hx] at h⟩
    · cases h
  · rintro ⟨item, hl, hn⟩
    simp only [hl]
    cases hx : read item with
    | none => rfl
    | some x => exact absurd (hread.mp hx) (hn x)

end

/-! ## Documents -/

/-- One of the three known keys is of another type. -/
def BadlyTyped (entries : Entries) : Prop :=
  IllTyped IsMode entries "mode_angle" ∨ IllTyped IsCount entries "historique_max" ∨
    IllTyped IsSwitch entries "theme_sombre"

/-- Each setting is what its key says, and the limit of the history is brought into its bounds. -/
structure SaidBy (settings : Settings) (entries : Entries) : Prop where
  mode : Says IsMode standard.mode entries "mode_angle" settings.mode
  historyLimit : ∃ n, Says IsCount standard.historyLimit entries "historique_max" n ∧
    settings.historyLimit = max 1 (min n 100)
  darkTheme : Says IsSwitch standard.darkTheme entries "theme_sombre" settings.darkTheme

theorem ofEntries?_eq_some_iff {entries : Entries} {settings : Settings} :
    ofEntries? entries = some settings ↔ settings.SaidBy entries := by
  simp only [ofEntries?, Option.bind_eq_bind, Option.pure_def, Option.bind_eq_some_iff,
    Option.some.injEq, valueAt?_eq_some_iff modeOf?_eq_some_iff,
    valueAt?_eq_some_iff countOf?_eq_some_iff, valueAt?_eq_some_iff switchOf?_eq_some_iff]
  constructor
  · rintro ⟨mode, hm, n, hn, dark, hd, rfl⟩
    exact ⟨hm, ⟨n, hn, rfl⟩, hd⟩
  · rintro ⟨hm, ⟨n, hn, hlimit⟩, hd⟩
    refine ⟨_, hm, n, hn, _, hd, ?_⟩
    obtain ⟨mode, limit, dark⟩ := settings
    obtain rfl : limit = max 1 (min n 100) := hlimit
    rfl

theorem ofEntries?_eq_none_iff {entries : Entries} : ofEntries? entries = none ↔ BadlyTyped entries := by
  simp only [BadlyTyped, ← valueAt?_eq_none_iff standard.mode modeOf?_eq_some_iff,
    ← valueAt?_eq_none_iff standard.historyLimit countOf?_eq_some_iff,
    ← valueAt?_eq_none_iff standard.darkTheme switchOf?_eq_some_iff, ofEntries?]
  cases valueAt? entries "mode_angle" modeOf? standard.mode <;>
    cases valueAt? entries "historique_max" countOf? standard.historyLimit <;>
      cases valueAt? entries "theme_sombre" switchOf? standard.darkTheme <;> simp

/-- Each setting is the same in both as far as the items of its own key are. -/
structure AgreeByKey (s s' : Settings) (entries entries' : Entries) : Prop where
  mode : entries.lookup "mode_angle" = entries'.lookup "mode_angle" → s.mode = s'.mode
  historyLimit : entries.lookup "historique_max" = entries'.lookup "historique_max" →
    s.historyLimit = s'.historyLimit
  darkTheme : entries.lookup "theme_sombre" = entries'.lookup "theme_sombre" → s.darkTheme = s'.darkTheme

theorem SaidBy.agreeByKey {s s' : Settings} {entries entries' : Entries} (h : s.SaidBy entries)
    (h' : s'.SaidBy entries') : AgreeByKey s s' entries entries' where
  mode hl := Says.unique modeOf?_eq_some_iff h.mode h'.mode hl
  historyLimit hl := by
    obtain ⟨n, hn, hs⟩ := h.historyLimit
    obtain ⟨n', hn', hs'⟩ := h'.historyLimit
    obtain rfl := Says.unique countOf?_eq_some_iff hn hn' hl
    rw [hs, hs']
  darkTheme hl := Says.unique switchOf?_eq_some_iff h.darkTheme h'.darkTheme hl

end Settings

/-! ## Files -/

namespace SettingsFile

open Settings

/-- The bytes of the file are a text. -/
def IsText (file : SettingsFile) (text : String) : Prop := file = .content text.toUTF8

/-- The file is a document with these entries. -/
def Holds (file : SettingsFile) (entries : Entries) : Prop :=
  ∃ text, file.IsText text ∧ document? text = some entries

/-- The settings that hold with the file. -/
inductive Gives (file : SettingsFile) : Settings → Prop
  | absent : file = .absent → Gives file standard
  | unreadable : file = .unreadable → Gives file standard
  | notText {bytes} : file = .content bytes → (∀ text, ¬ file.IsText text) → Gives file standard
  | notToml {text} : file.IsText text → document? text = none → Gives file standard
  | badlyTyped {entries} : file.Holds entries → BadlyTyped entries → Gives file standard
  | said {entries settings} : file.Holds entries → settings.SaidBy entries → Gives file settings

theorem fromUTF8?_eq_some_iff {bytes : ByteArray} {text : String} :
    String.fromUTF8? bytes = some text ↔ bytes = text.toUTF8 := by
  unfold String.fromUTF8?
  constructor
  · intro h
    split at h
    · obtain rfl := Option.some.inj h
      rfl
    · cases h
  · rintro rfl
    exact dif_pos text.isValidUTF8

theorem IsText.text? {file : SettingsFile} {text : String} (h : file.IsText text) :
    file.text? = .ok (some text) := by
  obtain rfl := h
  have ht : String.fromUTF8? text.toUTF8 = some text := fromUTF8?_eq_some_iff.mpr rfl
  simp only [SettingsFile.text?, ht]

theorem IsText.load {file : SettingsFile} {text : String} (h : file.IsText text) :
    file.load = (Settings.ofToml? text).getD standard := by
  simp only [SettingsFile.load, read, h.text?]
  cases Settings.ofToml? text <;> rfl

theorem Holds.load {file : SettingsFile} {entries : Entries} (h : file.Holds entries) :
    file.load = (ofEntries? entries).getD standard := by
  obtain ⟨text, ht, hd⟩ := h
  rw [ht.load, Settings.ofToml?, hd, Option.bind_some]

theorem Gives.load {file : SettingsFile} {settings : Settings} (h : file.Gives settings) :
    file.load = settings := by
  cases h with
  | absent h | unreadable h =>
      obtain rfl := h
      rfl
  | @notText bytes h hn =>
      obtain rfl := h
      have hnone : String.fromUTF8? bytes = none := by
        rw [Option.eq_none_iff_forall_ne_some]
        exact fun text ht => hn text (congrArg _ (fromUTF8?_eq_some_iff.mp ht))
      simp [SettingsFile.load, read, text?, hnone]
  | notToml h hd => rw [h.load, Settings.ofToml?, hd, Option.bind_none, Option.getD_none]
  | badlyTyped h hb => rw [h.load, ofEntries?_eq_none_iff.mpr hb, Option.getD_none]
  | said h hs => rw [h.load, ofEntries?_eq_some_iff.mpr hs, Option.getD_some]

theorem exists_gives (file : SettingsFile) : ∃ settings, file.Gives settings := by
  cases file with
  | absent => exact ⟨_, .absent rfl⟩
  | unreadable => exact ⟨_, .unreadable rfl⟩
  | content bytes =>
      cases ht : String.fromUTF8? bytes with
      | none =>
          refine ⟨_, .notText rfl fun text h => ?_⟩
          rw [fromUTF8?_eq_some_iff.mpr (content.inj h)] at ht
          cases ht
      | some text =>
          have ht : IsText (.content bytes) text := congrArg _ (fromUTF8?_eq_some_iff.mp ht)
          cases hd : document? text with
          | none => exact ⟨_, .notToml ht hd⟩
          | some entries =>
              cases hs : ofEntries? entries with
              | none => exact ⟨_, .badlyTyped ⟨text, ht, hd⟩ (ofEntries?_eq_none_iff.mp hs)⟩
              | some settings => exact ⟨_, .said ⟨text, ht, hd⟩ (ofEntries?_eq_some_iff.mp hs)⟩

theorem load_eq_iff {file : SettingsFile} {settings : Settings} :
    file.load = settings ↔ file.Gives settings := by
  refine ⟨?_, Gives.load⟩
  rintro rfl
  obtain ⟨settings, h⟩ := file.exists_gives
  rwa [h.load]

/-- Whatever a file gives is within the bounds. -/
theorem Gives.historyLimit {file : SettingsFile} {settings : Settings} (h : file.Gives settings) :
    1 ≤ settings.historyLimit ∧ settings.historyLimit ≤ 100 := by
  cases h with
  | said _ hs =>
      obtain ⟨n, -, hn⟩ := hs.historyLimit
      omega
  | _ => decide

theorem Holds.saidBy {file : SettingsFile} {entries : Entries} (h : file.Holds entries)
    (hb : ¬ BadlyTyped entries) :
    file.load.SaidBy entries := by
  rw [h.load]
  cases hs : ofEntries? entries with
  | none => exact absurd (ofEntries?_eq_none_iff.mp hs) hb
  | some settings => exact ofEntries?_eq_some_iff.mp hs

end SettingsFile

/-! ## Runs -/

namespace SettingsFile

open Settings Window

/-- Every file gives settings: the standard ones if anything is wrong with it, and otherwise what each
known key says, whatever the others are. A history that starts with them never has more than a hundred
rows, and is not empty after a result. -/
theorem load_bounds_history (file : SettingsFile) :
    (∀ settings, file.load = settings ↔ file.Gives settings) ∧
    (1 ≤ file.load.historyLimit ∧ file.load.historyLimit ≤ 100) ∧
    (∀ (other : SettingsFile) entries entries', file.Holds entries → other.Holds entries' →
      ¬ BadlyTyped entries →
      ¬ BadlyTyped entries' → AgreeByKey file.load other.load entries entries') ∧
    ∀ events, (after (.start file.load) events).history.length ≤ 100 ∧
      ∀ earlier e later, events = earlier ++ e :: later → Succeeds (after (.start file.load) earlier) e →
        1 ≤ (after (.start file.load) events).history.length := by
  have hbounds := (load_eq_iff.mp (Eq.refl file.load)).historyLimit
  refine ⟨fun settings => load_eq_iff, hbounds, fun other entries entries' h h' hb hb' => ?_,
    fun events => ?_⟩
  · exact (h.saidBy hb).agreeByKey (h'.saidBy hb')
  rw [history_start, List.length_take]
  refine ⟨by omega, fun earlier e later hevents hs => ?_⟩
  have hlog : 1 ≤ (resultLog (.start file.load) events).length := by
    rw [hevents]
    exact List.length_pos_iff.mpr (resultLog_ne_nil hs)
  omega

example : (content "historique_max = 0\n[mode_angle.rad]".toUTF8).load = ⟨.radians, 1, false⟩ := by
  decide +kernel

example : (content "historique_max = 20\ntheme_sombre = 1".toUTF8).load = .standard := by decide +kernel

end SettingsFile

end DeskCalculator
