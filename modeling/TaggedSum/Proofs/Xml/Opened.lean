import TaggedSum.Xml.Event

namespace TaggedSum.Xml

namespace Event

def tag? : Event → Option Tag
  | start t => some t
  | empty t => some t
  | _ => none

/-- The names of the elements that are open behind an event, innermost first. -/
def opens (names : List String) : Event → List String
  | start t => t.name :: names
  | stop => names.tail
  | _ => names

theorem opens_of_ne {e : Event} (names : List String) (hs : ∀ t, e ≠ start t) (hp : e ≠ stop) :
    opens names e = names := by
  cases e with
  | start t => exact absurd rfl (hs t)
  | stop => exact absurd rfl hp
  | _ => rfl

def opened (names : List String) (es : List Event) : List String := es.foldl opens names

end Event

namespace Stream

theorem withoutMark_append {cs : List Char} (h : cs ≠ []) (ds : List Char) :
    withoutMark (cs ++ ds) = withoutMark cs ++ ds := by
  cases cs with
  | nil => exact absurd rfl h
  | cons c cs =>
    by_cases hc : c = '\ufeff'
    · subst hc
      rfl
    · rw [List.cons_append, withoutMark, withoutMark, List.cons_append]
      · exact fun ds h => hc (List.cons.inj h).1
      · exact fun ds h => hc (List.cons.inj h).1

theorem withoutMark_prefix {cs ds : List Char} (h : cs <+: ds) :
    withoutMark cs <+: withoutMark ds := by
  obtain ⟨es, rfl⟩ := h
  cases cs with
  | nil => exact List.nil_prefix
  | cons c cs =>
    rw [withoutMark_append (List.cons_ne_nil c cs)]
    exact List.prefix_append _ _

theorem scan_events_prefix (s : Scan) (cs ds : List Char) :
    (scan s cs).events <+: (scan s (cs ++ ds)).events := by
  induction cs generalizing s with
  | nil => exact List.nil_prefix
  | cons c cs ih =>
    rw [List.cons_append, scan, scan]
    cases s.step c with
    | error fault => exact List.prefix_rfl
    | ok r => exact (List.prefix_append_right_inj r.2).mpr (ih r.1)

/-- What has been read of a text does not depend on what follows. -/
theorem events_prefix {t t' : String} (h : t.toList <+: t'.toList) :
    (ofText t).events <+: (ofText t').events := by
  obtain ⟨cs, hcs⟩ := withoutMark_prefix h
  rw [ofText, ofText, ← hcs]
  exact scan_events_prefix .start _ cs

end Stream

end TaggedSum.Xml
