import GherkinIndex.Command
import GherkinIndex.Proofs.Disk.Growth

/-! What writing a report leaves behind.

    Targets are written one after the other, each behind the directories above it. Two of them may
    lead to one place, and then the later one is written over the earlier one; but such paths end in
    the same name, so they have the same extension and the same is written twice.

        out/a.txt  b/../out/a.txt  out/a.json     out → dir   out/a.txt → text   out/a.json → json -/

namespace GherkinIndex

/-! ### Formats -/

theorem Format.ofPath_congr {p p' : Text} (h : Path.fileName p = Path.fileName p') :
    ofPath p = ofPath p' := by
  unfold ofPath Path.extensionLower Path.extension
  rw [h]

theorem Format.exists_fileName {p : Text} {format : Format} (h : ofPath p = some format) :
    ∃ n, Path.fileName p = some n := by
  cases hn : Path.fileName p with
  | none => simp [ofPath, Path.extensionLower, Path.extension, hn] at h
  | some n => exact ⟨n, rfl⟩

/-- Paths to one place have one format. -/
theorem Format.eq_of_place {d : Disk} (hd : d.Unlinked) {p p' : Text} {q : Place}
    {format format' : Format} (hformat : ofPath p = some format)
    (hformat' : ofPath p' = some format') (hp : d.place p = .ok q) (hp' : d.place p' = .ok q) :
    format = format' := by
  obtain ⟨n, hn⟩ := exists_fileName hformat
  obtain ⟨n', hn'⟩ := exists_fileName hformat'
  obtain rfl : n = n' := by
    have hlast := Disk.getLast?_of_place hd hn hp
    have hlast' := Disk.getLast?_of_place hd hn' hp'
    exact Option.some.inj (hlast.symm.trans hlast')
  have hsame : some format = some format' := by
    rw [← hformat, ← hformat', ofPath_congr (hn.trans hn'.symm)]
  exact Option.some.inj hsame

namespace Command

/-- A report is written to some paths: each holds it in the format of its own extension, and nothing
    else has changed but that directories above the paths are new. -/
structure Written (r : Report) (view : View) (paths : List Text) (d d' : Disk) : Prop where
  grows : d.Grows d'
  holds : ∀ p ∈ paths, ∃ format, Format.ofPath p = some format ∧
    d'.Holds p (r.render format view)
  changed : ∀ q, d'.item? q ≠ d.item? q →
    (∃ p ∈ paths, d'.place p = .ok q) ∨
    (d.item? q = none ∧ d'.item? q = some .dir ∧
      ∃ p ∈ paths, ∃ above, Path.IsAbove above p ∧ d'.place above = .ok q)

theorem prepares_of_makeHome {d d' : Disk} (hd : d.Unlinked) {p : Text}
    (h : makeHome d p = .ok d') : Disk.Prepares (Path.IsAbove · p) d d' := by
  rw [makeHome] at h
  cases hparent : Path.parent p with
  | none =>
    rw [hparent] at h
    obtain rfl := Except.ok.inj h
    exact .refl _ d
  | some home =>
    simp only [hparent] at h
    by_cases hempty : home.isEmpty = true
    · rw [if_pos hempty] at h
      obtain rfl := Except.ok.inj h
      exact .refl _ d
    · rw [if_neg hempty] at h
      cases hmade : d.makeDirs home with
      | error f => rw [hmade] at h; cases h
      | ok made =>
        rw [hmade] at h
        obtain rfl := Except.ok.inj h
        exact (Disk.prepares_of_makeDirs hd hmade).mono fun _ => Path.isAbove_of_parent hparent

variable {r : Report} {view : View}

theorem Written.nil (d : Disk) : Written r view [] d d :=
  ⟨.refl d, by simp, fun _ h => absurd rfl h⟩

/-- A report stays in its file when others are written: a later path may lead to the same place, but
    then it asks for the same. -/
theorem Written.holds_earlier {d d' : Disk} (hd : d.Unlinked) {p : Text} {ps : List Text}
    {format : Format} (h : Written r view ps d d') (hformat : Format.ofPath p = some format)
    (hholds : d.Holds p (r.render format view)) : d'.Holds p (r.render format view) := by
  obtain ⟨q, hplace, hitem⟩ := hholds
  have hplace := Disk.place_grows h.grows hd hplace
  refine ⟨q, hplace, ?_⟩
  by_cases hsame : d'.item? q = d.item? q
  · rw [hsame, hitem]
  rcases h.changed q hsame with ⟨p', hp', hplace'⟩ | ⟨hnone, -⟩
  · obtain ⟨format', hformat', q', hq', hitem'⟩ := h.holds p' hp'
    obtain rfl : q' = q := Except.ok.inj (hq'.symm.trans hplace')
    obtain rfl := Format.eq_of_place (h.grows.unlinked hd) hformat hformat' hplace hplace'
    exact hitem'
  · simp [hnone] at hitem

/-- One target more, written before the others. -/
theorem Written.cons {d d₁ d₂ d₃ : Disk} (hd : d.Unlinked) {p : Text} {ps : List Text}
    {format : Format} (hformat : Format.ofPath p = some format)
    (hhome : Disk.Prepares (Path.IsAbove · p) d d₁)
    (hwrite : Disk.Writes p (r.render format view) d₁ d₂) (hrest : Written r view ps d₂ d₃) :
    Written r view (p :: ps) d d₃ := by
  have hd₁ := hhome.grows.unlinked hd
  have hd₂ := hwrite.grows.unlinked hd₁
  have hfirst := hhome.grows.trans hwrite.grows
  refine ⟨hfirst.trans hrest.grows, ?_, fun q hq => ?_⟩
  · exact List.forall_mem_cons.2
      ⟨⟨format, hformat, hrest.holds_earlier hd₂ hformat hwrite.holds⟩, hrest.holds⟩
  -- who changed the place last: the later targets, this one, or the making of its directory
  by_cases hlate : d₃.item? q = d₂.item? q
  · by_cases hfile : d₂.item? q = d₁.item? q
    · obtain ⟨hnone, hdir, above, habove, hplace⟩ := hhome.changed q (by rwa [← hfile, ← hlate])
      refine .inr ⟨hnone, by rw [hlate, hfile, hdir], p, List.mem_cons_self, above, habove, ?_⟩
      exact Disk.place_grows hrest.grows hd₂ (Disk.place_grows hwrite.grows hd₁ hplace)
    · exact .inl ⟨p, List.mem_cons_self,
        Disk.place_grows hrest.grows hd₂ (hwrite.changed q hfile)⟩
  · rcases hrest.changed q hlate with ⟨p', hp', hplace⟩ | ⟨hnone, hdir, p', hp', hover⟩
    · exact .inl ⟨p', List.mem_cons_of_mem _ hp', hplace⟩
    · exact .inr ⟨hfirst.there q hnone, hdir, p', List.mem_cons_of_mem _ hp', hover⟩

/-- A target cannot be written, or it is and the others follow. -/
theorem writeTargets_cons (r : Report) (view : View) (t : Target) (ts : List Target) (d : Disk) :
    ((writeTargets r view d (t :: ts)).code = 1 ∧ (writeTargets r view d (t :: ts)).output = []) ∨
    ∃ d₁ d₂, makeHome d t.path = .ok d₁ ∧
      d₁.writeFile t.path (r.render t.format view) = .ok d₂ ∧
      writeTargets r view d (t :: ts) = { writeTargets r view d₂ ts with
        log := .reportWritten t.path t.format.label :: (writeTargets r view d₂ ts).log } := by
  cases hhome : makeHome d t.path with
  | error e => exact .inl (by simp [writeTargets, hhome])
  | ok d₁ =>
    cases hwrite : d₁.writeFile t.path (r.render t.format view) with
    | error f => exact .inl (by simp [writeTargets, hhome, hwrite])
    | ok d₂ => exact .inr ⟨d₁, d₂, rfl, hwrite, by simp only [writeTargets, hhome, hwrite]⟩

/-- Targets that could all be written. -/
theorem written_of_writeTargets {ts : List Target} {d : Disk} (hd : d.Unlinked)
    (hts : ∀ t ∈ ts, Format.ofPath t.path = some t.format)
    (h : (writeTargets r view d ts).code = 0) :
    Written r view (ts.map (·.path)) d (writeTargets r view d ts).disk := by
  induction ts generalizing d with
  | nil => exact .nil d
  | cons t ts ih =>
    rw [List.forall_mem_cons] at hts
    rcases writeTargets_cons r view t ts d with ⟨hcode, -⟩ | ⟨d₁, d₂, hhome, hwrite, hrest⟩
    · omega
    · rw [hrest] at h ⊢
      have hhome := prepares_of_makeHome hd hhome
      have hd₁ := hhome.grows.unlinked hd
      have hwrite := Disk.writes_of_writeFile hd₁ hwrite
      exact .cons hd hts.1 hhome hwrite (ih (hwrite.grows.unlinked hd₁) hts.2 h)

theorem output_writeTargets (ts : List Target) (d : Disk) :
    (writeTargets r view d ts).output = [] := by
  induction ts generalizing d with
  | nil => rfl
  | cons t ts ih =>
    rcases writeTargets_cons r view t ts d with ⟨-, houtput⟩ | ⟨d₁, d₂, -, -, hrest⟩
    · exact houtput
    · rw [hrest]
      exact ih d₂

end Command
end GherkinIndex
