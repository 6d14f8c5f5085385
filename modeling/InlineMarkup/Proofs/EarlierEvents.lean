import InlineMarkup.Proofs.Recording

/-! Earlier events: assembly that starts where events are recorded already leaves these as they are, and
records after them what it records elsewhere. -/

namespace InlineMarkup

/-- The mark of the same event, with `count` more events before it. -/
def Marker.behind (count : Nat) (marker : Marker) : Marker := ⟨count + marker.index⟩

def OpenTag.behind (count : Nat) (opened : OpenTag) : OpenTag :=
  { opened with marker := opened.marker.behind count }

/-- The same trace after the events `earlier`. -/
def Trace.behind (earlier : Array Event) (trace : Trace) : Trace :=
  { trace with events := earlier ++ trace.events }

namespace Trace

variable (earlier : Array Event) (trace : Trace) (marker : Marker)

theorem behind_push (event : Event) :
    (trace.behind earlier).push event = (trace.push event).behind earlier := by
  simp only [behind, push, Array.push_append]

theorem behind_mark : (trace.behind earlier).mark =
    (trace.mark.1.behind earlier, trace.mark.2.behind earlier.size) := by
  rw [mark, mark, behind_push]
  simp [behind, Marker.behind]

@[simp] theorem holds_behind :
    (trace.behind earlier).holds (marker.behind earlier.size) = trace.holds marker := by
  simp [holds, behind, Marker.behind, Array.getElem?_append_right]

theorem behind_complete (kind : SyntaxKind) :
    (trace.behind earlier).complete (marker.behind earlier.size) kind =
      (trace.complete marker kind).behind earlier := by
  simp only [complete, holds_behind]
  simp [behind, Marker.behind, Array.setIfInBounds_append_right, Array.push_append]

theorem behind_abandon :
    (trace.behind earlier).abandon (marker.behind earlier.size) =
      (trace.abandon marker).behind earlier := by
  have hlast : (marker.behind earlier.size).index + 1 = (trace.behind earlier).events.size ↔
      marker.index + 1 = trace.events.size := by
    simp only [behind, Marker.behind, Array.size_append]
    omega
  simp only [abandon, holds_behind, hlast]
  split
  · rename_i hindex
    have hsize : 0 < trace.events.size := hindex ▸ Nat.succ_pos _
    have hevents : trace.events.isEmpty = false :=
      Array.isEmpty_eq_false_iff.2 (Array.ne_empty_of_size_pos hsize)
    simp [behind, Array.pop_append, hevents]
  · rfl

end Trace

namespace Assembly

/-- The same assembly where the events `earlier` were recorded before. -/
def behind (earlier : Array Event) (assembly : Assembly) : Assembly :=
  { assembly with
    openTags := assembly.openTags.map (.behind earlier.size)
    trace := assembly.trace.behind earlier }

variable (earlier : Array Event) (assembly : Assembly) (opened : OpenTag) (token : Token)

theorem behind_record : (assembly.behind earlier).record token = (assembly.record token).behind earlier := by
  simp only [record, behind, Trace.behind_push]

theorem current_behind : (assembly.behind earlier).current = assembly.current := by
  cases hopen : assembly.openTags <;> simp [current, behind, hopen, OpenTag.behind]

theorem behind_addText (content : List Char) :
    (assembly.behind earlier).addText token content = (assembly.addText token content).behind earlier := by
  rw [addText, current_behind, addText, ← behind_record]
  rfl

theorem behind_addCode :
    (assembly.behind earlier).addCode token = (assembly.addCode token).behind earlier := by
  simp only [addCode, current_behind, ← behind_record]
  rfl

theorem behind_addBareUrl :
    (assembly.behind earlier).addBareUrl token = (assembly.addBareUrl token).behind earlier := by
  simp only [addBareUrl, current_behind, ← behind_record]
  rfl

theorem behind_openTag (tag : Tag) :
    (assembly.behind earlier).openTag tag token = (assembly.openTag tag token).behind earlier := by
  have hlength : (assembly.behind earlier).openTags.length = assembly.openTags.length :=
    List.length_map ..
  simp only [openTag, hlength]
  split
  · rw [← behind_addText]
    rfl
  · rw [← behind_record, current_behind]
    have hmark := Trace.behind_mark earlier assembly.trace
    simp only [behind] at hmark ⊢
    rw [hmark]
    rfl

theorem behind_demote : (assembly.behind earlier).demote (opened.behind earlier.size) =
    (assembly.demote opened).behind earlier := by
  have habandon := Trace.behind_abandon earlier assembly.trace opened.marker
  simp only [demote, behind, OpenTag.behind, habandon]

theorem behind_setUrl : (assembly.behind earlier).setUrl (opened.behind earlier.size) token =
    (assembly.setUrl opened token).behind earlier := by
  have htag : (opened.behind earlier.size).tag = opened.tag := rfl
  rw [setUrl, setUrl, htag]
  split <;> rfl

theorem behind_finish : (assembly.behind earlier).finish (opened.behind earlier.size) token =
    (assembly.finish opened token).behind earlier := by
  simp only [finish, behind_setUrl, behind_record]
  have hcomplete := Trace.behind_complete earlier ((assembly.setUrl opened token).record token).trace
    opened.marker opened.tag.syntaxKind
  simp only [behind, OpenTag.behind] at hcomplete ⊢
  rw [hcomplete]

theorem behind_foldl_demote (above openTags : List OpenTag) :
    (above.map (.behind earlier.size)).foldl demote
        { assembly.behind earlier with openTags := openTags.map (.behind earlier.size) } =
      (above.foldl demote { assembly with openTags }).behind earlier := by
  have hstart : { assembly.behind earlier with openTags := openTags.map (.behind earlier.size) } =
      ({ assembly with openTags } : Assembly).behind earlier := rfl
  rw [hstart]
  generalize ({ assembly with openTags } : Assembly) = inner
  induction above generalizing inner with
  | nil => rfl
  | cons opened above ih => rw [List.map_cons, List.foldl_cons, behind_demote, ih, List.foldl_cons]

theorem isOpen_behind (p : Tag → Bool) : (assembly.behind earlier).isOpen p = assembly.isOpen p := by
  simp [isOpen, behind, List.any_map, Function.comp_def, OpenTag.behind]

theorem behind_closeNearest (p : Tag → Bool) : (assembly.behind earlier).closeNearest p token =
    (assembly.closeNearest p token).behind earlier := by
  have htake : (assembly.behind earlier).openTags.takeWhile (!p ·.tag) =
      (assembly.openTags.takeWhile (!p ·.tag)).map (.behind earlier.size) := by
    simp [behind, List.takeWhile_map, Function.comp_def, OpenTag.behind]
  have hdrop : (assembly.behind earlier).openTags.dropWhile (!p ·.tag) =
      (assembly.openTags.dropWhile (!p ·.tag)).map (.behind earlier.size) := by
    simp [behind, List.dropWhile_map, Function.comp_def, OpenTag.behind]
  simp only [closeNearest, htake, hdrop]
  cases assembly.openTags.dropWhile (!p ·.tag) with
  | nil => rfl
  | cons opened openTags =>
    rw [List.map_cons]
    simp only [behind_foldl_demote, behind_finish]

theorem behind_toggle (style : Style) :
    (assembly.behind earlier).toggle style token = (assembly.toggle style token).behind earlier := by
  rw [toggle, toggle, isOpen_behind]
  split
  · exact behind_closeNearest ..
  · exact behind_openTag ..

theorem behind_closeLink :
    (assembly.behind earlier).closeLink token = (assembly.closeLink token).behind earlier := by
  rw [closeLink, closeLink, isOpen_behind]
  split
  · exact behind_closeNearest ..
  · exact behind_addText ..

theorem behind_step : (assembly.behind earlier).step token = (assembly.step token).behind earlier := by
  unfold step
  split
  · exact behind_addText ..
  · exact behind_addText ..
  · exact behind_addCode ..
  · exact behind_addCode ..
  · exact behind_addBareUrl ..
  · exact behind_openTag ..
  · exact behind_openTag ..
  · exact behind_closeLink ..
  all_goals exact behind_toggle ..

theorem behind_foldl_step (tokens : List Token) : tokens.foldl step (assembly.behind earlier) =
    (tokens.foldl step assembly).behind earlier := by
  induction tokens generalizing assembly with
  | nil => rfl
  | cons token tokens ih => rw [List.foldl_cons, behind_step, ih, List.foldl_cons]

theorem behind_demoteAll :
    (assembly.behind earlier).demoteAll = assembly.demoteAll.behind earlier :=
  behind_foldl_demote earlier assembly assembly.openTags []

/-- Tokens are taken in behind earlier events as they are elsewhere. -/
theorem run_behind (tokens : List Token) :
    Assembly.run { trace := Trace.behind earlier {} } tokens = (assemble tokens).behind earlier := by
  have hstart : ({ trace := (Trace.behind earlier {}).push (.start .root) } : Assembly) =
      behind earlier { trace := Trace.push {} (.start .root) } := by
    rw [Trace.behind_push]
    rfl
  simp only [assemble, run]
  rw [hstart, behind_foldl_step, behind_demoteAll]
  simp only [behind, Trace.behind_push]

end Assembly

end InlineMarkup
