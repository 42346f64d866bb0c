import UseImports.Config
import UseImports.Proofs.Code.View

/-!
# Layers of settings

Settings are layered (`with_overrides`): a setting has the value that the last layer gives it, and a
layer counts only as a whole. Whether a layer is refused depends on nothing but the layer, so the
order of the others and what was set before do not matter to it.

The same settings come out when the settings are written as an object, the layer is laid over that
object member by member, and the result is read from scratch.

* `Refused`: layers with a value that cannot be read. `withLayer_eq_error_iff`: exactly these are
  refused.
* `GivenBy`: the value of a setting under layers.
* `withLayer_eq_withOverlay`: **a layer laid over the written settings.**
* `settings_layered`: **the last layer that counts decides.**
-/

namespace UseImports

variable {json layer : Json} {k : Setting} {members : List (String × Json)} {name : String}
    {c : Config}

/-! ## The settings -/

namespace Setting

theorem strings?_ofStrings (items : List String) :
    (Json.ofStrings items).strings? = some items := by
  change (items.map Json.string).mapM Json.string? = some items
  induction items with
  | nil => rfl
  | cons s items ih => simp [ih, Json.string?]

/-- **What is written is read back.** -/
theorem read_write (k : Setting) (v : k.Value) : k.read (k.write v) = some v := by
  cases k with
  | enableAutoDetect | showDiagnostics | showNotifications => rfl
  | diagnosticSeverity => cases v <;> rfl
  | exclude => exact strings?_ofStrings v
  | sortMode => cases v <;> rfl

/-- No value is written as an object. -/
theorem write_ne_object (k : Setting) (v : k.Value) (members : List (String × Json)) :
    k.write v ≠ .object members := by
  cases k <;> exact Json.noConfusion

end Setting

/-! ## Sections -/

section Sections

variable {c' d : Config} {s s' : Json}

theorem Config.under_of_none (h : s.get? k.key = none) : c.under s k = .ok (c.get k) := by
  rw [under, h]

theorem Config.under_of_some {v : k.Value} (h : s.get? k.key = some json)
    (hread : k.read json = some v) : c.under s k = .ok v := by
  rw [under, h]
  dsimp only
  rw [hread]

theorem Config.under_of_unreadable (h : s.get? k.key = some json) (hread : k.read json = none) :
    c.under s k = .error (.unreadable k.key) := by
  rw [under, h]
  dsimp only
  rw [hread]

/-- A section is read setting by setting. -/
theorem Config.withSection_congr (h : ∀ k, c.under s k = d.under s' k) :
    c.withSection s = d.withSection s' := by
  rw [withSection, withSection, h .enableAutoDetect, h .showDiagnostics, h .showNotifications,
    h .diagnosticSeverity, h .exclude, h .sortMode]

/-- **A section is accepted with the values that it gives or leaves**, if all of them can be read.
-/
theorem Config.withSection_eq_ok_iff :
    c.withSection s = .ok c' ↔ ∀ k, c.under s k = .ok (c'.get k) := by
  constructor
  · intro h
    rw [withSection] at h
    obtain ⟨_, h₁, h⟩ := bind_ok_iff.mp h
    obtain ⟨_, h₂, h⟩ := bind_ok_iff.mp h
    obtain ⟨_, h₃, h⟩ := bind_ok_iff.mp h
    obtain ⟨_, h₄, h⟩ := bind_ok_iff.mp h
    obtain ⟨_, h₅, h⟩ := bind_ok_iff.mp h
    obtain ⟨_, h₆, h⟩ := bind_ok_iff.mp h
    obtain rfl := Except.ok.inj h
    intro k
    cases k with
    | enableAutoDetect => exact h₁
    | showDiagnostics => exact h₂
    | showNotifications => exact h₃
    | diagnosticSeverity => exact h₄
    | exclude => exact h₅
    | sortMode => exact h₆
  · intro h
    -- a section that says nothing leaves what is there
    have hnull : c'.withSection .null = .ok c' := rfl
    rw [← hnull]
    exact withSection_congr fun k => (h k).trans (under_of_none rfl).symm

end Sections

/-! ## Layers -/

/-- The layer holds a value that cannot be read under the key of a setting. -/
def Refused (layer : Json) : Prop :=
  ∃ (members : List (String × Json)) (k : Setting) (json : Json), settingsSection layer =
    .object members ∧
    members.lookup k.key = some json ∧ k.read json = none

theorem refused_iff :
    Refused layer ↔ ∃ (k : Setting) (json : Json), (settingsSection layer).get? k.key = some json ∧
      k.read json = none := by
  constructor
  · rintro ⟨members, k, json, hsection, hlookup, hread⟩
    exact ⟨k, json, by rw [hsection]; exact hlookup, hread⟩
  · rintro ⟨k, json, hget, hread⟩
    cases hsection : settingsSection layer with
    | object members =>
      rw [hsection] at hget
      exact ⟨members, k, json, hsection, hget, hread⟩
    | _ =>
      rw [hsection] at hget
      cases hget

namespace Config

/-- The values under a layer that is not refused. -/
theorem exists_under (h : ¬ Refused layer) (k : Setting) :
    ∃ v, c.under (settingsSection layer) k = .ok v := by
  cases hget : (settingsSection layer).get? k.key with
  | none => exact ⟨_, under_of_none hget⟩
  | some json =>
    cases hread : k.read json with
    | none => exact absurd (refused_iff.mpr ⟨k, json, hget, hread⟩) h
    | some v => exact ⟨v, under_of_some hget hread⟩

/-- The settings with given values. -/
theorem exists_of_values (value : (k : Setting) → k.Value) : ∃ c : Config, ∀ k, c.get k = value k :=
  ⟨⟨value .enableAutoDetect, value .showDiagnostics, value .showNotifications,
    value .diagnosticSeverity,
    value .exclude, value .sortMode⟩, fun k => by cases k <;> rfl⟩

theorem exists_withLayer (h : ¬ Refused layer) : ∃ c', c.withLayer layer = .ok c' := by
  choose value hvalue using exists_under (c := c) h
  obtain ⟨c', hc'⟩ := exists_of_values value
  exact ⟨c', withSection_eq_ok_iff.mpr fun k => by rw [hvalue, hc']⟩

/-- **Exactly the layers with a value that cannot be read are refused**, whatever the settings are.
-/
theorem withLayer_eq_error_iff : (∃ e, c.withLayer layer = .error e) ↔ Refused layer := by
  constructor
  · rintro ⟨e, herror⟩
    by_contra hnot
    obtain ⟨c', hok⟩ := exists_withLayer (c := c) hnot
    rw [hok] at herror
    cases herror
  · intro h
    obtain ⟨k, json, hget, hread⟩ := refused_iff.mp h
    cases hlayer : c.withLayer layer with
    | error e => exact ⟨e, rfl⟩
    | ok c' =>
      have hk := withSection_eq_ok_iff.mp hlayer k
      rw [under_of_unreadable hget hread] at hk
      cases hk

theorem withLayerIfValid_of_refused (h : Refused layer) : c.withLayerIfValid layer = c := by
  obtain ⟨e, herror⟩ := withLayer_eq_error_iff.mpr h
  rw [withLayerIfValid, herror]

/-- A layer that counts gives a setting the value under its key, if it has that key. -/
theorem under_withLayerIfValid (h : ¬ Refused layer) (k : Setting) :
    c.under (settingsSection layer) k = .ok ((c.withLayerIfValid layer).get k) := by
  obtain ⟨c', hok⟩ := exists_withLayer (c := c) h
  rw [withLayerIfValid, hok]
  exact withSection_eq_ok_iff.mp hok k

end Config

/-- The value of a setting under layers: the last one of those that count and have the key of the
setting gives it, and where there is none it is the initial one. -/
inductive GivenBy (k : Setting) (initial : k.Value) (layers : List Json) : k.Value → Prop
  | given {front back : List Json} {layer json : Json} {value : k.Value} : layers =
      front ++ layer :: back →
      ¬ Refused layer → (settingsSection layer).get? k.key = some json → k.read json = some value →
      (∀ l ∈ back, ¬ Refused l → (settingsSection l).get? k.key = none) →
      GivenBy k initial layers value
  | initial : (∀ l ∈ layers, ¬ Refused l → (settingsSection l).get? k.key = none) →
      GivenBy k initial layers initial

/-- A layer that does not count or does not have the key decides nothing. -/
theorem GivenBy.concat {initial value : k.Value} {layers : List Json}
    (h : GivenBy k initial layers value)
    (hlayer : ¬ Refused layer → (settingsSection layer).get? k.key = none) :
    GivenBy k initial (layers ++ [layer]) value := by
  have hlast : ∀ {ls : List Json}, (∀ l ∈ ls, ¬ Refused l → (settingsSection l).get? k.key = none) →
      ∀ l ∈ ls ++ [layer], ¬ Refused l → (settingsSection l).get? k.key = none := fun hls l hl =>
    (List.mem_append.mp hl).elim (hls l) fun hl => List.mem_singleton.mp hl ▸ hlayer
  cases h with
  | @given front back giver json value hsplit hgiver hget hread hback =>
    have hconcat : layers ++ [layer] = front ++ giver :: (back ++ [layer]) := by
      rw [hsplit, List.append_assoc, List.cons_append]
    exact .given hconcat hgiver hget hread (hlast hback)
  | initial hnone => exact .initial (hlast hnone)

/-- **The last layer that counts decides.** -/
theorem givenBy_foldl (c : Config) (layers : List Json) (k : Setting) :
    GivenBy k (c.get k) layers ((layers.foldl Config.withLayerIfValid c).get k) := by
  induction layers using List.reverseRecOn with
  | nil => exact .initial (by simp)
  | append_singleton layers layer ih =>
    rw [List.foldl_concat]
    by_cases hrefused : Refused layer
    · rw [Config.withLayerIfValid_of_refused hrefused]
      exact ih.concat fun h => absurd hrefused h
    have hunder :=
      Config.under_withLayerIfValid (c := layers.foldl Config.withLayerIfValid c) hrefused k
    cases hget : (settingsSection layer).get? k.key with
    | none =>
      rw [Config.under_of_none hget] at hunder
      rw [← Except.ok.inj hunder]
      exact ih.concat fun _ => hget
    | some json =>
      cases hread : k.read json with
      | none => exact absurd (refused_iff.mpr ⟨k, json, hget, hread⟩) hrefused
      | some value =>
        rw [Config.under_of_some hget hread] at hunder
        rw [← Except.ok.inj hunder]
        exact .given rfl hrefused hget hread (by simp)

/-! ## Layers over the written settings -/

theorem Json.overlay_of_ne_object (layer : Json) {base : Json}
    (h : ∀ members, base ≠ .object members) :
    layer.overlay base = layer := by
  rw [Json.overlay]
  exact fun _ members _ hbase => h members hbase

theorem Json.lookup_overlayMembers_of_none (h : members.lookup name = none)
    (base : List (String × Json)) :
    (overlayMembers members base).lookup name = base.lookup name := by
  induction members with
  | nil => rw [overlayMembers]
  | cons member members ih =>
    obtain ⟨other, value⟩ := member
    rw [List.lookup_cons] at h
    split at h
    · cases h
    · rename_i hne
      rw [overlayMembers, lookup_setEntry, if_neg (by simpa using hne), ih h]

/-- What is laid over a value that is no object takes its place. -/
theorem Json.lookup_overlayMembers_of_some {base : List (String × Json)} {value old : Json}
    (h : members.lookup name = some value) (hold : base.lookup name = some old)
    (hne : ∀ members, old ≠ .object members) :
    (overlayMembers members base).lookup name = some value := by
  induction members with
  | nil => cases h
  | cons member members ih =>
    obtain ⟨other, first⟩ := member
    rw [overlayMembers, lookup_setEntry]
    rw [List.lookup_cons] at h
    split at h
    · rename_i hsame
      obtain rfl : name = other := by simpa using hsame
      obtain rfl := Option.some.inj h
      rw [if_pos rfl, hold]
      exact congrArg some (overlay_of_ne_object _ hne)
    · rename_i hother
      rw [if_neg (by simpa using hother), ih h]

namespace Config

theorem lookup_members (c : Config) (k : Setting) :
    c.members.lookup k.key = some (k.write (c.get k)) := by
  cases k <;> rfl

/-- **A layer counts as if it were laid over the written settings**, to the key that a refusal
names. -/
theorem withLayer_eq_withOverlay (c : Config) (layer : Json) :
    c.withLayer layer = c.withOverlay layer := by
  rw [withLayer, withOverlay]
  cases settingsSection layer with
  | object members =>
    refine withSection_congr fun k => ?_
    cases hlookup : (Json.object members).get? k.key with
    | none =>
      rw [under_of_none hlookup, under_of_some ?_ (k.read_write (c.get k))]
      exact (Json.lookup_overlayMembers_of_none hlookup _).trans (c.lookup_members k)
    | some json =>
      have hover : (Json.object (Json.overlayMembers members c.members)).get? k.key = some json :=
        Json.lookup_overlayMembers_of_some hlookup (c.lookup_members k) (k.write_ne_object _)
      cases hread : k.read json with
      | none => rw [under_of_unreadable hlookup hread, under_of_unreadable hover hread]
      | some v => rw [under_of_some hlookup hread, under_of_some hover hread]
  | _ => rfl

end Config

/-- **Layers of settings.** Under layers, of which those that are refused are passed over, each
setting has the value that the last layer which counts and has its key gives it, and else its
initial one. A layer is refused exactly when it holds a value under the key of a setting that cannot
be read, whatever the settings are, and then it changes none of them. To put a layer over settings
is to write them, to lay the layer over what is written, and to read the result. -/
theorem settings_layered (c : Config) (layers : List Json) :
    (∀ k, GivenBy k (c.get k) layers ((layers.foldl Config.withLayerIfValid c).get k)) ∧
    (∀ layer, ((∃ e, c.withLayer layer = .error e) ↔ Refused layer) ∧
      (Refused layer → ∀ k, (c.withLayerIfValid layer).get k = c.get k) ∧
      c.withLayer layer = c.withOverlay layer) :=
  ⟨givenBy_foldl c layers, fun layer => ⟨Config.withLayer_eq_error_iff,
    fun h k => by rw [Config.withLayerIfValid_of_refused h], c.withLayer_eq_withOverlay layer⟩⟩

end UseImports
