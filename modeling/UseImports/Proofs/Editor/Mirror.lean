import UseImports.Proofs.Editor.Published

/-!
# The documents of the client and of the server

A client tells the server of its documents by notifications (`did_open`, `did_change`, `did_save`,
`did_close`), always with whole texts. What the server stores of a document is told by the last
notification that carries a text of it or closes it. A client that follows the protocol holds the
last of several content changes, and the server stores the first one, so the two agree unless such a
notification is the last word on a document.

* `Event.held`, `heldAfter`: what the client holds.
* `Event.kept`: what the server stores, `document?_of_step`, `document?_of_run`.
* `Event.Tells`, `Event.Agrees`: the notifications that matter, and those that both sides understand
  alike.
* `foldl_kept_eq_iff`: **the last notification that matters decides.**
* `stored_eq_held_iff`: exactly when the server has the text of the client.
-/

namespace UseImports

variable {text uri : String} {e : Event} {o : Outcome} {env : Surroundings} {replies : Replies}
    {xs : List Happening}

/-! ## Both sides of a notification -/

namespace Event

/-- What a client that follows the protocol holds of the document behind the notification. Each
content change is a whole text that replaces the one before it, changes are those of an open
document, and saving changes no text. -/
def held (uri : String) (text : Option String) : Event → Option String
  | .opened u new => if u = uri then some new else text
  | .changed u news =>
    if u = uri then text.map fun old => news.foldl (fun _ new => new) old else text
  | .closed u => if u = uri then none else text
  | _ => text

/-- What the server stores of the document behind the notification. -/
def kept (uri : String) (text : Option String) : Event → Option String
  | .opened u new => if u = uri then some new else text
  | .changed u news => if u = uri then news.head?.or text else text
  | .saved u new => if u = uri then new.or text else text
  | .closed u => if u = uri then none else text
  | _ => text

/-- The text that the server takes from the notification. -/
def taken : Event → Option String
  | .opened _ new => some new
  | .changed _ news => news.head?
  | .saved _ new => new
  | _ => none

/-- The notification carries a text of the document or closes it. -/
def Tells (uri : String) : Event → Prop
  | .opened u _ => u = uri
  | .changed u news => u = uri ∧ news ≠ []
  | .saved u new => u = uri ∧ new ≠ none
  | .closed u => u = uri
  | _ => False

/-- Both sides understand the notification alike, which comes when the client holds the text: of
several content changes the first is the last, and they are those of an open document; what is saved
is what the client holds. -/
def Agrees (text : Option String) : Event → Prop
  | .changed _ news => text.isSome = true ∧ news.head? = news.getLast?
  | .saved _ new => new = text
  | _ => True

theorem foldl_replace (old : String) (news : List String) :
    news.foldl (fun _ new => new) old = news.getLast?.getD old := by
  induction news generalizing old with
  | nil => rfl
  | cons new news ih =>
    rw [List.foldl_cons, ih, List.getLast?_cons]
    rfl

theorem kept_of_not_tells (h : ¬ e.Tells uri) (text : Option String) : e.kept uri text = text := by
  cases e with
  | opened u new => exact if_neg h
  | changed u news =>
    rw [kept]
    split
    · rename_i hu
      rw [not_not.mp fun hne => h ⟨hu, hne⟩]
      rfl
    · rfl
  | saved u new =>
    rw [kept]
    split
    · rename_i hu
      rw [not_not.mp fun hne => h ⟨hu, hne⟩]
      rfl
    · rfl
  | closed u => exact if_neg h
  | _ => rfl

theorem held_of_not_tells (h : ¬ e.Tells uri) (text : Option String) : e.held uri text = text := by
  cases e with
  | opened u new => exact if_neg h
  | changed u news =>
    rw [held]
    split
    · rename_i hu
      rw [not_not.mp fun hne => h ⟨hu, hne⟩]
      exact Option.map_id'
    · rfl
  | closed u => exact if_neg h
  | _ => rfl

/-- A notification that tells something leaves both sides with the same text exactly if they
understand it alike. -/
theorem kept_eq_held_iff (h : e.Tells uri) (stored text : Option String) :
    e.kept uri stored = e.held uri text ↔ e.Agrees text := by
  cases e with
  | opened u new => simp [kept, held, Agrees, show u = uri from h]
  | changed u news =>
    obtain ⟨rfl, hne⟩ := h
    obtain ⟨first, news, rfl⟩ := List.exists_cons_of_ne_nil hne
    cases text with
    | none => simp [kept, held, Agrees]
    | some old => simp [kept, held, Agrees, foldl_replace, List.getLast?_cons]
  | saved u new =>
    obtain ⟨rfl, hne⟩ := h
    obtain ⟨text', rfl⟩ := Option.ne_none_iff_exists'.mp hne
    simp [kept, held, Agrees]
  | closed u => simp [kept, held, Agrees, show u = uri from h]
  | _ => cases h

/-- What is stored has been taken from the notification or was stored before. -/
theorem mem_kept {stored : Option String} (h : e.kept uri stored = some text) :
    e.taken = some text ∨ stored = some text := by
  cases e with
  | opened u new =>
    rw [kept] at h
    split at h
    · exact .inl h
    · exact .inr h
  | changed u news =>
    rw [kept] at h
    split at h
    · exact (Option.or_eq_some_iff.mp h).imp_right And.right
    · exact .inr h
  | saved u new =>
    rw [kept] at h
    split at h
    · exact (Option.or_eq_some_iff.mp h).imp_right And.right
    · exact .inr h
  | closed u =>
    rw [kept] at h
    split at h
    · cases h
    · exact .inr h
  | _ => exact .inr h

end Event

/-- What the client holds of the document after the events. -/
def heldAfter (uri : String) (text : Option String) (es : List Event) : Option String :=
  es.foldl (Event.held uri) text

/-! ## Runs of notifications -/

section Folds

variable {text : Option String}

/-- The last notification that tells something of the document comes at the end, or in front of one
that does not. -/
theorem forall_last_tells_iff {p : List Event → Event → Prop} {es : List Event} :
    (∀ front x back, es ++ [e] = front ++ x :: back → x.Tells uri →
      (∀ y ∈ back, ¬ y.Tells uri) → p front x) ↔ (e.Tells uri → p es e) ∧ (¬ e.Tells uri →
        ∀ front x back, es = front ++ x :: back → x.Tells uri → (∀ y ∈ back, ¬ y.Tells uri) →
          p front x) := by
  constructor
  · intro h
    refine ⟨fun he => h es e [] rfl he fun y hy =>
      absurd hy List.not_mem_nil, fun he front x back hes hx hback => ?_⟩
    refine h front x (back ++ [e]) (by rw [hes, List.append_assoc]; rfl) hx fun y hy => ?_
    rcases List.mem_append.mp hy with hy | hy
    · exact hback y hy
    · rwa [List.mem_singleton.mp hy]
  · rintro ⟨hlast, hfront⟩ front x back hes hx hback
    rcases List.eq_nil_or_concat' back with rfl | ⟨back, y, rfl⟩
    · obtain ⟨rfl, heq⟩ := List.append_inj' hes rfl
      obtain rfl := List.singleton_inj.mp heq
      exact hlast hx
    · rw [← List.cons_append, ← List.append_assoc] at hes
      obtain ⟨rfl, heq⟩ := List.append_inj' hes rfl
      obtain rfl := List.singleton_inj.mp heq
      exact hfront (hback e (by simp)) front x back rfl hx fun y hy =>
        hback y (List.mem_append_left _ hy)

/-- **The last notification that tells something of the document decides** whether both sides end
with the same text. -/
theorem foldl_kept_eq_iff (es : List Event) :
    es.foldl (Event.kept uri) text = heldAfter uri text es ↔
      ∀ front e back, es = front ++ e :: back → e.Tells uri → (∀ x ∈ back, ¬ x.Tells uri) →
        e.Agrees (heldAfter uri text front) := by
  induction es using List.reverseRecOn with
  | nil =>
    refine iff_of_true rfl fun front e back hes => ?_
    cases front <;> cases hes
  | append_singleton es e ih =>
    rw [forall_last_tells_iff, heldAfter, List.foldl_concat, List.foldl_concat]
    by_cases he : e.Tells uri
    · rw [Event.kept_eq_held_iff he]
      exact ⟨fun h => ⟨fun _ => h, fun hne => absurd he hne⟩, fun h => h.1 he⟩
    · rw [Event.kept_of_not_tells he, Event.held_of_not_tells he]
      exact ih.trans ⟨fun h => ⟨fun hx => absurd hx he, fun _ => h⟩, fun h => h.2 he⟩

end Folds

/-! ## Sessions -/

namespace Session

variable {s : Session} {reader : UriReader}

/-- Storing a text and publishing its diagnostics. -/
theorem document?_of_stored {u : String} (h : (s.store u text).refresh u = .ok o) :
    o.session.config = s.config ∧ ∀ uri, o.session.document? uri = if u =
      uri then some text else s.document? uri := by
  have hrefreshed := refreshed_of_refresh h
  refine ⟨hrefreshed.config_eq, fun uri => ?_⟩
  rw [document?, hrefreshed.documents_eq]
  exact (document?_store s u text uri).trans (if_congr eq_comm rfl rfl)

/-- **What the server stores behind one notification.** -/
theorem document?_of_step (he : e.document?.isSome = true) (h : s.step reader env replies e = .ok o)
    :
    o.session.config = s.config ∧ ∀ uri, o.session.document? uri =
      e.kept uri (s.document? uri) := by
  cases e with
  | opened u new => exact document?_of_stored h
  | changed u news =>
    cases news with
    | nil =>
      cases h
      exact ⟨rfl, fun uri => (ite_self _).symm⟩
    | cons new news => exact document?_of_stored h
  | saved u new =>
    cases new with
    | none =>
      have hrefreshed := refreshed_of_refresh h
      exact ⟨hrefreshed.config_eq, fun uri =>
        (congrArg (List.lookup uri) hrefreshed.documents_eq).trans (ite_self _).symm⟩
    | some new => exact document?_of_stored h
  | closed u =>
    cases h
    exact ⟨rfl, fun uri => (lookup_eraseEntry s.documents u uri).trans (if_congr eq_comm rfl rfl)⟩
  | _ => cases he

/-- What the server stores behind a run of notifications. -/
theorem document?_of_run (hxs : ∀ x ∈ xs, x.event.document?.isSome = true) {s' : Session}
    (h : s.run reader xs = .ok s') (uri : String) :
    s'.document? uri = (xs.map (·.event)).foldl (Event.kept uri) (s.document? uri) := by
  induction xs generalizing s with
  | nil =>
    cases h
    rfl
  | cons x xs ih =>
    obtain ⟨o, ho, hrest⟩ := bind_ok_iff.mp h
    rw [ih (fun y hy => hxs y (List.mem_cons_of_mem x hy)) hrest,
      (document?_of_step (hxs x List.mem_cons_self) ho).2 uri]
    rfl

/-- Notifications with texts that can be shown are answered. -/
theorem exists_step (he : e.document?.isSome = true)
    (htaken : ∀ text ∈ e.taken, ∃ ds, shownDiagnostics s.config text = .ok ds)
    (hstored : ∀ uri, ∀ text ∈ s.document? uri, ∃ ds, shownDiagnostics s.config text = .ok ds) :
    ∃ o, s.step reader env replies e = .ok o := by
  have hnew : ∀ u new, (∃ ds, shownDiagnostics s.config new = .ok ds) →
      ∃ o, (s.store u new).refresh u = .ok o := by
    rintro u new hshown
    refine exists_refresh fun text htext => ?_
    rw [document?_store, if_pos rfl] at htext
    exact Option.some.inj htext ▸ hshown
  cases e with
  | opened u new => exact hnew u new (htaken new rfl)
  | changed u news =>
    cases news with
    | nil => exact ⟨_, rfl⟩
    | cons new news => exact hnew u new (htaken new rfl)
  | saved u new =>
    cases new with
    | none => exact exists_refresh fun text htext => hstored u text htext
    | some new => exact hnew u new (htaken new rfl)
  | closed u => exact ⟨_, rfl⟩
  | _ => cases he

theorem exists_run (hxs : ∀ x ∈ xs, x.event.document?.isSome = true)
    (htaken : ∀ x ∈ xs, ∀ text ∈ x.event.taken, ∃ ds, shownDiagnostics s.config text = .ok ds)
    (hstored : ∀ uri, ∀ text ∈ s.document? uri, ∃ ds, shownDiagnostics s.config text = .ok ds) :
    ∃ s', s.run reader xs = .ok s' := by
  induction xs generalizing s with
  | nil => exact ⟨s, rfl⟩
  | cons x xs ih =>
    have hx := hxs x List.mem_cons_self
    obtain ⟨o, ho⟩ := exists_step hx (htaken x List.mem_cons_self) hstored
    obtain ⟨hconfig, hdocument⟩ := document?_of_step hx ho
    have hrest : ∃ s', o.session.run reader xs = .ok s' := by
      refine ih (fun y hy => hxs y (List.mem_cons_of_mem x hy)) ?_ fun uri text htext => ?_
      · rw [hconfig]
        exact fun y hy => htaken y (List.mem_cons_of_mem x hy)
      · rw [hconfig]
        rw [hdocument uri] at htext
        rcases Event.mem_kept htext with htext | htext
        · exact htaken x List.mem_cons_self text htext
        · exact hstored uri text htext
    obtain ⟨s', hs'⟩ := hrest
    exact ⟨s', bind_ok_iff.mpr ⟨o, ho, hs'⟩⟩

end Session

open Session in
/-- **When the server has the text of the client**: after every run of notifications, what is stored
of a document is what a client holds that follows the protocol, exactly when both sides understand
the last notification alike that carries a text of the document or closes it. A run is cut short
only by a text that cannot be analysed. -/
theorem stored_eq_held_iff {reader : UriReader} {s : Session} {xs : List Happening}
    (hxs : ∀ x ∈ xs, x.event.document?.isSome = true) :
    ((∀ text, (∃ x ∈ xs, x.event.taken = some text) ∨ (∃ uri, s.document? uri = some text) →
        ∃ ds, shownDiagnostics s.config text = .ok ds) → ∃ s', s.run reader xs = .ok s') ∧
    ∀ s', s.run reader xs = .ok s' → ∀ uri,
      (s'.document? uri = heldAfter uri (s.document? uri) (xs.map (·.event)) ↔
        ∀ front e back, xs.map (·.event) = front ++ e :: back → e.Tells uri →
          (∀ x ∈ back, ¬ x.Tells uri) →
          e.Agrees (heldAfter uri (s.document? uri) front)) := by
  refine ⟨fun h => ?_, fun s' hrun uri => ?_⟩
  · exact exists_run hxs (fun x hx text htext => h text (.inl ⟨x, hx, htext⟩))
      fun uri text htext => h text (.inr ⟨uri, htext⟩)
  · rw [document?_of_run hxs hrun uri]
    exact foldl_kept_eq_iff _

/-- A document is opened, and changes twice in one notification. -/
def changedTwice : List Happening :=
  [⟨⟨{}, none⟩, {}, .opened "file:///a.php" "<?php\n"⟩,
   ⟨⟨{}, none⟩, {}, .changed "file:///a.php" ["<?php\nnew A;\n", "<?php\nnew B;\n"]⟩]

/-- Then it is saved, and the client sends the text that it holds. -/
def changedAndSaved : List Happening :=
  changedTwice ++ [⟨⟨{}, none⟩, {}, .saved "file:///a.php" (some "<?php\nnew B;\n")⟩]

/-- The saved text makes good for the change in front of it. -/
theorem stored_eq_held_iff_saved : ∃ s', Session.run {} Uri.reader changedAndSaved = .ok s' ∧
    s'.document? "file:///a.php" = some "<?php\nnew B;\n" ∧
    ∀ front e back, changedAndSaved.map (·.event) = front ++ e :: back → e.Tells "file:///a.php" →
      (∀ x ∈ back, ¬ x.Tells "file:///a.php") → e.Agrees (heldAfter "file:///a.php" none front) :=
  ⟨_, rfl, rfl,
    ((@stored_eq_held_iff Uri.reader {} changedAndSaved (by decide)).2 _ rfl "file:///a.php").mp
    rfl⟩

/-- **The first of two changes is stored**, and the client holds the second one. -/
theorem stored_ne_held : ∃ s', Session.run {} Uri.reader changedTwice = .ok s' ∧
    s'.document? "file:///a.php" = some "<?php\nnew A;\n" ∧
    heldAfter "file:///a.php" none (changedTwice.map (·.event)) = some "<?php\nnew B;\n" ∧
    s'.document? "file:///a.php" ≠ heldAfter "file:///a.php" none (changedTwice.map (·.event)) :=
  ⟨_, rfl, rfl, rfl, by decide +kernel⟩

end UseImports
