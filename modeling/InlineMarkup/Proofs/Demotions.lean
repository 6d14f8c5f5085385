import InlineMarkup.Proofs.OpenTags

/-! Demotions: every delimiter that may open a tag and delimits nothing in the end is reported once, and no
other token is. -/

namespace InlineMarkup

/-- The tag that delimiters of the kind open. -/
def Tag.ofOpener? : TokenKind → Option Tag
  | .bold => some (.styled .bold)
  | .italic => some (.styled .italic)
  | .strikethrough => some (.styled .strikethrough)
  | .underline => some (.styled .underline)
  | .linkStart => some .link
  | .imageStart => some .image
  | .codeInline | .codeBlock | .escape | .address | .bareUrl | .text => none

theorem Tag.ofOpener?_opener (tag : Tag) : ofOpener? tag.opener = some tag := by
  rcases tag with (_ | _ | _ | _) | _ | _ <;> rfl

/-! ### Tokens that delimit a node -/

namespace SyntaxTree

mutual

/-- For each token of a tree, whether it is the first or the last thing in a node other than the root.
`edge` says so of the tree itself. -/
def delimits (edge : Bool) : SyntaxTree → List Bool
  | token _ _ => [edge]
  | node kind children => allDelimit (kind != .root) true children

def allDelimit (inNode first : Bool) : List SyntaxTree → List Bool
  | [] => []
  | tree :: trees =>
    delimits (inNode && (first || trees.isEmpty)) tree ++ allDelimit inNode false trees

end

end SyntaxTree

namespace Item

mutual

/-- For each token of an item, whether it belongs together with another one. -/
def delimits : Item → List Bool
  | token _ _ => [false]
  | pair _ _ inside _ => true :: allDelimit inside ++ [true]

def allDelimit : List Item → List Bool
  | [] => []
  | item :: items => delimits item ++ allDelimit items

end

@[simp] theorem allDelimit_append (items more : List Item) :
    allDelimit (items ++ more) = allDelimit items ++ allDelimit more := by
  induction items with
  | nil => rfl
  | cons item items ih => simp [allDelimit, ih]

mutual

theorem length_delimits : ∀ item : Item, item.delimits.length = item.pieces.length
  | token _ _ => rfl
  | pair _ _ inside _ => by simp [delimits, pieces, length_allDelimit inside]

theorem length_allDelimit : ∀ items : List Item, (allDelimit items).length = (allPieces items).length
  | [] => rfl
  | item :: items => by simp [allDelimit, allPieces, length_delimits item, length_allDelimit items]

end

mutual

theorem delimits_syntaxTree : ∀ item : Item, SyntaxTree.delimits false item.syntaxTree = item.delimits
  | token _ _ => rfl
  | pair tag opener inside closer => by
    have hkind : (tag.syntaxKind != .root) = true := by cases tag <;> rfl
    rw [syntaxTree, syntaxTrees_eq_map, SyntaxTree.delimits, hkind, List.cons_append,
      SyntaxTree.allDelimit, allDelimit_syntaxTree_concat inside]
    rfl

/-- Before a closer no token delimits the node that it closes. -/
theorem allDelimit_syntaxTree_concat : ∀ (items : List Item) (kind : SyntaxKind) (raw : List Char),
    SyntaxTree.allDelimit true false (items.map syntaxTree ++ [.token kind raw]) =
      allDelimit items ++ [true]
  | [], _, _ => rfl
  | item :: items, kind, raw => by
    have hmore : (items.map syntaxTree ++ [SyntaxTree.token kind raw]).isEmpty = false := by simp
    rw [List.map_cons, List.cons_append, SyntaxTree.allDelimit, hmore, allDelimit, List.append_assoc,
      ← allDelimit_syntaxTree_concat items kind raw, ← delimits_syntaxTree item]
    rfl

end

theorem allDelimit_syntaxTree (first : Bool) (items : List Item) :
    SyntaxTree.allDelimit false first (items.map syntaxTree) = allDelimit items := by
  induction items generalizing first with
  | nil => rfl
  | cons item items ih =>
    rw [List.map_cons, SyntaxTree.allDelimit, ih, Bool.false_and, delimits_syntaxTree, allDelimit]

end Item

/-- What is reported of a tag that is demoted. -/
def OpenTag.recovery (opened : OpenTag) : Recovery := .demoted opened.tag opened.delimiter

namespace Assembly

/-! ### What is reported of a token -/

/-- What is reported of the token with number `n`, should it delimit nothing: its tag found no room when
it came, or was never closed. -/
def recoveryAt? (tokens : List Token) (n : Nat) : Option Recovery := do
  let token ← tokens[n]?
  let tag ← Tag.ofOpener? token.kind
  return if (after tokens n).openTags.length = maxDepth then .nestingLimit tag token.pos
    else .demoted tag token.raw

/-- What is reported of tokens, the first of which has number `start`, where `delimits` says of each
whether it delimits a node. -/
def reports (tokens : List Token) (start : Nat) (delimits : List Bool) : List Recovery :=
  (delimits.zipIdx start).filterMap fun entry => if entry.1 then none else recoveryAt? tokens entry.2

variable {tokens : List Token} {token : Token} {assembly : Assembly} {pairing : Pairing} {n start : Nat}
  {waiting : List Waiting}

theorem reports_append (tokens : List Token) (start : Nat) (delimits more : List Bool) :
    reports tokens start (delimits ++ more) =
      reports tokens start delimits ++ reports tokens (start + delimits.length) more := by
  rw [reports, List.zipIdx_append, List.filterMap_append, reports, reports]

theorem reports_nil (tokens : List Token) (start : Nat) : reports tokens start [] = [] := rfl

theorem reports_cons_true (tokens : List Token) (start : Nat) (delimits : List Bool) :
    reports tokens start (true :: delimits) = reports tokens (start + 1) delimits := by
  rw [reports, List.zipIdx_cons, List.filterMap_cons_none (by rfl), reports]

theorem reports_cons_false (tokens : List Token) (start : Nat) (delimits : List Bool) :
    reports tokens start (false :: delimits) =
      (recoveryAt? tokens start).toList ++ reports tokens (start + 1) delimits := by
  rw [reports, List.zipIdx_cons, reports]
  cases hrecovery : recoveryAt? tokens start <;> simp [hrecovery]

theorem recoveryAt?_eq_none (htoken : tokens[n]? = some token) (hkind : Tag.ofOpener? token.kind = none) :
    recoveryAt? tokens n = none := by
  simp [recoveryAt?, htoken, hkind]

theorem recoveryAt?_of_full (htoken : tokens[n]? = some token) {tag : Tag} (hkind : token.kind = tag.opener)
    (hfull : maxDepth ≤ (after tokens n).openTags.length) :
    recoveryAt? tokens n = some (.nestingLimit tag token.pos) := by
  have hle := (Reached.start.run (tokens.take n)).length_openTags_le
  have heq : (after tokens n).openTags.length = maxDepth := Nat.le_antisymm hle hfull
  simp [recoveryAt?, htoken, hkind, Tag.ofOpener?_opener, heq]

theorem recoveryAt?_of_room (htoken : tokens[n]? = some token) {tag : Tag} (hkind : token.kind = tag.opener)
    (hroom : (after tokens n).openTags.length < maxDepth) :
    recoveryAt? tokens n = some (.demoted tag token.raw) := by
  simp [recoveryAt?, htoken, hkind, Tag.ofOpener?_opener, Nat.ne_of_lt hroom]

/-! ### What a step reports -/

/-- What a step does with the open tags, and what it reports. A token opens a tag if there is room for it,
and closes one after those inside it. -/
inductive Moves (assembly : Assembly) (token : Token) : List OpenTag → List Recovery → Prop
  | plain (hkind : Tag.ofOpener? token.kind = none) : Moves assembly token assembly.openTags []
  | full (tag : Tag) (hkind : token.kind = tag.opener) (hfull : maxDepth ≤ assembly.openTags.length) :
      Moves assembly token assembly.openTags [.nestingLimit tag token.pos]
  | opened (opened : OpenTag) (hkind : token.kind = opened.tag.opener)
      (hroom : assembly.openTags.length < maxDepth) (hdelimiter : opened.delimiter = token.raw) :
      Moves assembly token (opened :: assembly.openTags) []
  | closed (above : List OpenTag) (opened : OpenTag) (openTags : List OpenTag)
      (hsplit : assembly.openTags = above ++ opened :: openTags) :
      Moves assembly token openTags (above.map OpenTag.recovery)

/-- Whether the step from one assembly to the next is as a step may be. -/
def Follows (assembly : Assembly) (token : Token) (next : Assembly) : Prop :=
  ∃ new, next.recoveries.toList = assembly.recoveries.toList ++ new ∧
    Moves assembly token next.openTags new

theorem follows_openTag (assembly : Assembly) (tag : Tag) (hkind : token.kind = tag.opener) :
    Follows assembly token (assembly.openTag tag token) := by
  by_cases hroom : assembly.openTags.length < maxDepth
  · rw [openTag_of_lt tag token hroom]
    exact ⟨[], (List.append_nil _).symm, .opened _ hkind hroom rfl⟩
  · rw [openTag, if_pos (Nat.le_of_not_lt hroom)]
    exact ⟨_, Array.toList_push, .full tag hkind (Nat.le_of_not_lt hroom)⟩

theorem recoveries_foldl_demote (above : List OpenTag) (assembly : Assembly) :
    (above.foldl demote assembly).recoveries.toList =
      assembly.recoveries.toList ++ above.map OpenTag.recovery := by
  induction above generalizing assembly with
  | nil => exact (List.append_nil _).symm
  | cons opened above ih =>
    rw [List.foldl_cons, ih, List.map_cons, demote, Array.toList_push, List.append_assoc]
    rfl

theorem recoveries_finish (assembly : Assembly) (opened : OpenTag) (token : Token) :
    (assembly.finish opened token).recoveries = assembly.recoveries := by
  simp only [finish, record, setUrl]
  split <;> rfl

theorem follows_closeNearest {p : Tag → Bool} (hopen : assembly.isOpen p) (token : Token) :
    Follows assembly token (assembly.closeNearest p token) := by
  obtain ⟨above, opened, openTags, hsplit, -, -, htake, hdrop⟩ :=
    Pairing.exists_nearest (fun opened : OpenTag => p opened.tag) hopen
  simp only [closeNearest, htake, hdrop]
  refine ⟨above.map OpenTag.recovery, ?_, ?_⟩
  · rw [recoveries_finish, recoveries_foldl_demote]
  · rw [openTags_finish, openTags_foldl_demote]
    exact .closed above opened openTags hsplit

theorem follows_toggle (assembly : Assembly) (style : Style) (hkind : token.kind = style.tokenKind) :
    Follows assembly token (assembly.toggle style token) := by
  rw [toggle]
  split
  · rename_i hopen
    exact follows_closeNearest hopen token
  · exact follows_openTag assembly (.styled style) hkind

theorem follows_step (assembly : Assembly) (token : Token) :
    Follows assembly token (assembly.step token) := by
  have hplain (hkind : Tag.ofOpener? token.kind = none) : Moves assembly token assembly.openTags [] :=
    .plain hkind
  unfold step
  cases hkind : token.kind with
  | text | escape | codeInline | codeBlock | bareUrl =>
    exact ⟨[], (List.append_nil _).symm, hplain (by rw [hkind]; rfl)⟩
  | linkStart => exact follows_openTag assembly .link hkind
  | imageStart => exact follows_openTag assembly .image hkind
  | address =>
    dsimp only
    rw [closeLink]
    split
    · rename_i hopen
      exact follows_closeNearest hopen token
    · exact ⟨[], (List.append_nil _).symm, hplain (by rw [hkind]; rfl)⟩
  | bold => exact follows_toggle assembly .bold hkind
  | italic => exact follows_toggle assembly .italic hkind
  | underline => exact follows_toggle assembly .underline hkind
  | strikethrough => exact follows_toggle assembly .strikethrough hkind

/-! ### What a run reports -/

/-- The number of tokens before an opener that waits within others. -/
def place (w : Waiting) (waiting : List Waiting) : Nat :=
  (Item.allDelimit (Waiting.demote waiting w.before)).length

/-- Whether all the openers that wait had room when they came. -/
def Known (tokens : List Token) : List Waiting → Prop
  | [] => True
  | w :: waiting => recoveryAt? tokens (place w waiting) = some (.demoted w.tag w.raw) ∧
      Known tokens waiting

/-- Whether all that is reported so far, and what the open tags would be reported with, is what is
reported of the tokens that delimit nothing so far. -/
structure Tally (tokens : List Token) (assembly : Assembly) (pairing : Pairing) : Prop where
  open_eq : assembly.openTags.map OpenTag.recovery =
    pairing.waiting.map fun w => .demoted w.tag w.raw
  known : Known tokens pairing.waiting
  perm : (assembly.recoveries.toList ++ assembly.openTags.map OpenTag.recovery).Perm
    (reports tokens 0 (Item.allDelimit pairing.items))

theorem Known.of_append {above : List Waiting} (h : Known tokens (above ++ waiting)) :
    Known tokens waiting := by
  induction above with
  | nil => exact h
  | cons w above ih => exact ih h.2

theorem items_push (pairing : Pairing) (item : Item) : (pairing.push item).items = pairing.items ++ [item] :=
  Waiting.demote_append ..

theorem items_opened (pairing : Pairing) (tag : Tag) (raw : List Char) :
    Pairing.items ⟨⟨tag, raw, pairing.level⟩ :: pairing.waiting, []⟩ =
      pairing.items ++ [.token tag.opener raw] :=
  Waiting.demote_append ..

theorem items_closed {above : List Waiting} {w : Waiting} (hsplit : pairing.waiting = above ++ w :: waiting)
    (closer : List Char) :
    pairing.items = Waiting.demote waiting w.before ++
        .token w.tag.opener w.raw :: Waiting.demote above pairing.level ∧
      Pairing.items ⟨waiting, w.before ++
          [.pair w.tag w.raw (Waiting.demote above pairing.level) closer]⟩ =
        Waiting.demote waiting w.before ++
          [.pair w.tag w.raw (Waiting.demote above pairing.level) closer] := by
  constructor
  · rw [Pairing.items, hsplit, Waiting.demote_above, Waiting.demote, Waiting.demote_append]
  · rw [Pairing.items, Waiting.demote_append]

/-- A token that stands for itself. -/
theorem Tally.push (h : Tally tokens assembly pairing) {next : Assembly} {new : List Recovery} {item : Item}
    (hitem : item.delimits = [false]) (hopen : next.openTags = assembly.openTags)
    (hrecoveries : next.recoveries.toList = assembly.recoveries.toList ++ new)
    (hnew : (recoveryAt? tokens (Item.allDelimit pairing.items).length).toList = new) :
    Tally tokens next (pairing.push item) := by
  refine ⟨hopen ▸ h.open_eq, h.known, ?_⟩
  have hitem' : Item.allDelimit [item] = [false] := by rw [Item.allDelimit, hitem]; rfl
  rw [items_push, Item.allDelimit_append, hitem', reports_append, reports_cons_false, Nat.zero_add, hnew,
    hrecoveries, hopen, List.append_assoc, reports_nil, List.append_nil]
  refine (List.Perm.append_left _ List.perm_append_comm).trans ?_
  rw [← List.append_assoc]
  exact h.perm.append_right _

/-- A token that opens a tag. -/
theorem Tally.opened (h : Tally tokens assembly pairing) {next : Assembly} {opened : OpenTag} {tag : Tag}
    {raw : List Char} (hopen : next.openTags = opened :: assembly.openTags)
    (hrecoveries : next.recoveries = assembly.recoveries)
    (hopened : opened.recovery = .demoted tag raw)
    (hnew : recoveryAt? tokens (Item.allDelimit pairing.items).length = some (.demoted tag raw)) :
    Tally tokens next ⟨⟨tag, raw, pairing.level⟩ :: pairing.waiting, []⟩ := by
  refine ⟨?_, ⟨hnew, h.known⟩, ?_⟩
  · rw [hopen, List.map_cons, List.map_cons, hopened, h.open_eq]
  · have hitem : Item.allDelimit [.token tag.opener raw] = [false] := rfl
    rw [items_opened, Item.allDelimit_append, hitem, reports_append, reports_cons_false, Nat.zero_add, hnew,
      hrecoveries, hopen, List.map_cons, hopened]
    exact List.perm_middle.trans ((h.perm.cons _).trans (List.perm_append_singleton ..).symm)

/-- A token that closes a tag. What is reported of the tags inside it was to be expected of them, and
nothing is reported of the tag any more. -/
theorem Tally.closed (h : Tally tokens assembly pairing) {next : Assembly} {above : List OpenTag}
    {opened : OpenTag} {inner : List Waiting} {w : Waiting} {closer : List Char}
    (hsplit : assembly.openTags = above ++ opened :: next.openTags)
    (hrecoveries : next.recoveries.toList = assembly.recoveries.toList ++ above.map OpenTag.recovery)
    (hwaiting : pairing.waiting = inner ++ w :: waiting) (hlength : next.openTags.length = waiting.length) :
    Tally tokens next
      ⟨waiting, w.before ++ [.pair w.tag w.raw (Waiting.demote inner pairing.level) closer]⟩ := by
  have hopen := h.open_eq
  rw [hsplit, hwaiting, List.map_append, List.map_append, List.map_cons, List.map_cons] at hopen
  obtain ⟨hinner, hrest⟩ := List.append_inj' hopen (by simp [hlength])
  obtain ⟨hopened, hrest⟩ := List.cons_eq_cons.1 hrest
  have hknown : Known tokens (w :: waiting) := Known.of_append (hwaiting ▸ h.known)
  refine ⟨hrest, hknown.2, ?_⟩
  obtain ⟨hitems, hitems'⟩ := items_closed hwaiting closer
  have hopener : (recoveryAt? tokens (Item.allDelimit (Waiting.demote waiting w.before)).length).toList =
      [opened.recovery] := by
    rw [← place, hknown.1, hopened]
    rfl
  have hperm := h.perm
  rw [hsplit, List.map_append, List.map_cons, ← List.append_assoc, hitems, Item.allDelimit_append,
    Item.allDelimit, Item.delimits, List.singleton_append, reports_append, reports_cons_false, Nat.zero_add,
    hopener] at hperm
  have hpair : Item.allDelimit [.pair w.tag w.raw (Waiting.demote inner pairing.level) closer] =
      true :: (Item.allDelimit (Waiting.demote inner pairing.level) ++ [true]) := by
    simp [Item.allDelimit, Item.delimits]
  -- the line about the opener goes, and none comes for the closer
  rw [hitems', Item.allDelimit_append, hpair, reports_append, reports_cons_true, reports_append,
    reports_cons_true, reports_nil, Nat.zero_add, List.append_nil, hrecoveries]
  refine (List.perm_cons opened.recovery).1 ?_
  exact List.perm_middle.symm.trans (hperm.trans List.perm_middle)

/-- A step of assembly and one of pairing on the same token fit together, as they leave equally many tags
open. -/
theorem Tally.step (h : Tally tokens assembly pairing) (htoken : tokens[n]? = some token)
    (hafter : after tokens n = assembly) (hlength : assembly.openTags.length = pairing.waiting.length)
    (hlength' : (assembly.step token).openTags.length =
      (pairing.step token.kind token.raw).waiting.length)
    (hn : (Item.allDelimit pairing.items).length = n) :
    Tally tokens (assembly.step token) (pairing.step token.kind token.raw) := by
  obtain ⟨new, hrecoveries, hmoves⟩ := follows_step assembly token
  have hstep := Pairing.step_spec pairing token.kind token.raw
  generalize assembly.step token = next at hlength' hrecoveries hmoves ⊢
  generalize pairing.step token.kind token.raw = paired at hlength' hstep ⊢
  generalize hopen : next.openTags = openTags at hmoves
  rw [hopen] at hlength'
  cases hmoves with
  | plain hkind =>
    cases hstep with
    | push hstray hfull =>
      refine h.push rfl hopen hrecoveries ?_
      rw [hn, recoveryAt?_eq_none htoken hkind]
      rfl
    | opened | closed => grind
  | full tag hkind hfull =>
    cases hstep with
    | push hstray hfull' =>
      refine h.push rfl hopen hrecoveries ?_
      rw [hn, recoveryAt?_of_full htoken hkind (hafter ▸ hfull)]
      rfl
    | opened | closed => grind
  | opened opened hkind hroom hdelimiter =>
    cases hstep with
    | opened tag hkind' hdepth hfree =>
      have htag : opened.tag = tag := by
        have hsame := congrArg Tag.ofOpener? (hkind.symm.trans hkind')
        rwa [Tag.ofOpener?_opener, Tag.ofOpener?_opener, Option.some.injEq] at hsame
      refine h.opened hopen ?_ ?_ ?_
      · rw [List.append_nil] at hrecoveries
        exact Array.toList_inj.1 hrecoveries
      · rw [OpenTag.recovery, htag, hdelimiter]
      · rw [hn, ← htag]
        exact recoveryAt?_of_room htoken hkind (hafter ▸ hroom)
    | push | closed => grind [Pairing.push]
  | closed above opened openTags hsplit =>
    cases hstep with
    | closed inner w waiting hwaiting hkind habove =>
      exact h.closed (hopen ▸ hsplit) hrecoveries hwaiting (hopen ▸ hlength')
    | push | opened => grind [Pairing.push]

theorem after_succ (htoken : tokens[n]? = some token) :
    after tokens (n + 1) = (after tokens n).step token := by
  rw [after, List.take_add_one, htoken, Option.toList_some, List.foldl_append, after]
  rfl

/-- Pairing after the first `n` tokens. -/
def pairingAfter (tokens : List Token) (n : Nat) : Pairing :=
  Pairing.run {} ((tokens.take n).map fun token => (token.kind, token.raw))

theorem pairingAfter_succ (htoken : tokens[n]? = some token) :
    pairingAfter tokens (n + 1) = (pairingAfter tokens n).step token.kind token.raw := by
  rw [pairingAfter, List.take_add_one, htoken, Option.toList_some, List.map_append, Pairing.run,
    List.foldl_append]
  rfl

theorem reached_after (tokens : List Token) (n : Nat) :
    Reached (tokens.take n) (after tokens n) (pairingAfter tokens n) :=
  Reached.start.run (tokens.take n)

theorem length_allDelimit_pairingAfter (hn : n ≤ tokens.length) :
    (Item.allDelimit (pairingAfter tokens n).items).length = n := by
  rw [Item.length_allDelimit, pairingAfter, Pairing.allPieces_run, List.length_append, List.length_map,
    List.length_take_of_le hn]
  exact Nat.zero_add n

theorem tally_after (tokens : List Token) (hn : n ≤ tokens.length) :
    Tally tokens (after tokens n) (pairingAfter tokens n) := by
  induction n with
  | zero => exact ⟨rfl, trivial, .refl _⟩
  | succ n ih =>
    obtain ⟨token, htoken⟩ : ∃ token, tokens[n]? = some token := ⟨_, List.getElem?_eq_getElem hn⟩
    have hlength := (reached_after tokens n).length_eq
    have hlength' := (reached_after tokens (n + 1)).length_eq
    rw [after_succ htoken, pairingAfter_succ htoken] at hlength' ⊢
    exact (ih (Nat.le_of_succ_le hn)).step htoken rfl hlength hlength'
      (length_allDelimit_pairingAfter (Nat.le_of_succ_le hn))

/-- When the tokens end, what is reported is what is to be reported of the tokens that delimit no node of the
syntax tree. -/
theorem perm_recoveries (tokens : List Token) : ∃ tree,
    SyntaxTree.ofEvents? tokens (assemble tokens).trace.events.toList = some tree ∧
      (tree.delimits false).length = tokens.length ∧
      (assemble tokens).recoveries.toList.Perm (reports tokens 0 (tree.delimits false)) := by
  have htally := tally_after tokens (Nat.le_refl tokens.length)
  have hlength := length_allDelimit_pairingAfter (Nat.le_refl tokens.length)
  have hitems : (pairingAfter tokens tokens.length).items =
      pairUp (tokens.map fun token => (token.kind, token.raw)) := by
    rw [pairingAfter, List.take_length, pairUp]
  rw [hitems] at hlength
  have hperm := htally.perm
  rw [hitems] at hperm
  refine ⟨_, ofEvents?_assemble tokens, ?_, ?_⟩
  · rwa [SyntaxTree.delimits, bne_self_eq_false, Item.allDelimit_syntaxTree]
  · rw [SyntaxTree.delimits, bne_self_eq_false, Item.allDelimit_syntaxTree, assemble_eq_after, demoteAll,
      recoveries_foldl_demote]
    exact hperm

end Assembly

end InlineMarkup
