import InlineMarkup.Proofs.Linked
import InlineMarkup.Proofs.Mirror

/-! Syntax trees lose nothing: the leaves of a tree are its tokens, and its text is the text that was
cut into them. -/

namespace InlineMarkup

namespace Backtick

/-- The content of code stands right after its fence. -/
theorem slice?_parts (raw : List Char) :
    slice? raw (parts raw).1 (byteSize (parts raw).2) = some (parts raw).2 := by
  obtain ⟨body, hraw, hbody⟩ := exists_run raw
  have hdrop : raw.drop (runLength raw) = body := by
    conv_lhs => rw [hraw]
    exact drop_runLength hbody
  have hfence : (parts raw).1 = runLength raw := by
    simp only [parts]
    split <;> rfl
  obtain ⟨after, hafter⟩ : ∃ after, body = (parts raw).2 ++ after := by
    simp only [parts, hdrop]
    split
    · exact ⟨body.drop (body.length - runLength raw), (List.take_append_drop _ _).symm⟩
    · exact ⟨[], (List.append_nil _).symm⟩
  have hslice := slice?_append (List.replicate (runLength raw) '`') (parts raw).2 after
  rwa [byteSize_replicate, ← hafter, ← hraw, ← hfence] at hslice

end Backtick

/-- Whether the text that assembly makes of the token can be cut out of it: what an escape takes starts
after one byte, the content of code after the fence. -/
structure Token.Divides (token : Token) : Prop where
  escape : token.kind = .escape → dropBytes? 1 token.raw = some (token.raw.drop 1)
  code : slice? token.raw (Backtick.parts token.raw).1 (byteSize (Backtick.parts token.raw).2) =
    some (Backtick.parts token.raw).2

theorem Token.Legible.isReadable {token : Token} (h : token.Legible) : token.isReadable := by
  by_cases hkind : token.kind = .escape
  · exact (h.escaped hkind).1
  · simp [Token.isReadable, hkind]

theorem Token.divides {token : Token} (h : token.isReadable) : token.Divides := by
  refine ⟨fun hkind => ?_, Backtick.slice?_parts token.raw⟩
  rw [isReadable, hkind] at h
  cases hraw : token.raw with
  | nil => simp [hraw] at h
  | cons c rest =>
    have hnarrow : c.utf8Size = 1 := by simpa [hraw] using h
    simp [dropBytes?, hnarrow]

namespace Assembly

/-- The events tell of every token once and in order, between the start and the end of the root. -/
theorem events_assemble (tokens : List Token) :
    (∃ inside, (assemble tokens).trace.events.toList = .start .root :: inside ++ [.finish] ∧
      Event.Balanced inside) ∧
    (assemble tokens).trace.events.toList.filterMap Event.tokenKind? =
      tokens.map fun token => .token token.kind := by
  obtain ⟨inside, hevents, hbuilds⟩ := exists_events_assemble tokens
  refine ⟨⟨inside, hevents, hbuilds.balanced⟩, ?_⟩
  have hkinds := hbuilds.filterMap_tokenKind?
  rw [allPieces_pairUp, List.map_map] at hkinds
  rw [hevents, List.filterMap_append, List.filterMap_cons_none rfl, hkinds]
  exact List.append_nil _

/-- The leaves of the tree are the tokens. -/
theorem exists_syntaxTree (tokens : List Token) :
    ∃ tree, SyntaxTree.ofEvents? tokens (assemble tokens).trace.events.toList = some tree ∧
      tree.leaves = tokens.map fun token => (.token token.kind, token.raw) := by
  refine ⟨_, ofEvents?_assemble tokens, ?_⟩
  rw [Item.leaves_node, allPieces_pairUp, Item.leavesOf, List.map_map]
  rfl

end Assembly

open Assembly

/-- Assembly never fails, its events make a tree, and that tree holds all tokens. At every moment the
nodes that are named are there, and the mark of every open tag stands at an event kept free for it. -/
theorem syntaxTree_lossless :
    (∀ (tokens : List Token) (assembly : Assembly) (pairing : Pairing), Reached tokens assembly pairing →
      assembly.Linked ∧ ∀ opened ∈ assembly.openTags, assembly.trace.holds opened.marker) ∧
    (∀ tokens : List Token, (∀ token ∈ tokens, token.isReadable) →
      (∀ token ∈ tokens, token.Divides) ∧
      (∃ last pairing, Reached tokens last pairing ∧ last.openTags = [] ∧
        (assemble tokens).document = last.document.compact ∧
        (assemble tokens).trace = last.trace.push .finish) ∧
      (assemble tokens).trace.intact ∧
      (∃ inside, (assemble tokens).trace.events.toList = .start .root :: inside ++ [.finish] ∧
        Event.Balanced inside) ∧
      (assemble tokens).trace.events.toList.filterMap Event.tokenKind? =
        tokens.map (fun token => .token token.kind) ∧
      ∃ tree, SyntaxTree.ofEvents? tokens (assemble tokens).trace.events.toList = some tree ∧
        tree.leaves = tokens.map fun token => (.token token.kind, token.raw)) ∧
    ∀ (options : ScanOptions) (text : List Char),
      (∀ token ∈ (scan options text).tokens, token.isReadable) ∧
      ∃ tree, syntaxTree? options text = some tree ∧ tree.text = text := by
  refine ⟨fun tokens assembly pairing h => ⟨h.linked, h.holds_marker⟩, ?_, ?_⟩
  · intro tokens hreadable
    obtain ⟨last, hreached, hdocument, htrace⟩ := exists_reached tokens
    obtain ⟨hevents, hkinds⟩ := events_assemble tokens
    have hclosed : last.openTags = [] := List.length_eq_zero_iff.1 hreached.length_eq
    refine ⟨fun token htoken => Token.divides (hreadable token htoken),
      ⟨last, _, hreached, hclosed, hdocument, htrace⟩, ?_, hevents, hkinds, exists_syntaxTree tokens⟩
    rw [htrace]
    exact hreached.intact
  · intro options text
    obtain ⟨tree, htree, hleaves⟩ := exists_syntaxTree (scan options text).tokens.toList
    refine ⟨fun token htoken => (legible_of_mem_scan htoken).isReadable, tree, htree, ?_⟩
    have htext := (cut_scan options text).1
    rw [Scanned.pieces, textOf, List.flatMap_map] at htext
    rw [SyntaxTree.text, hleaves, List.flatMap_map]
    exact htext

/-- Two styles that are never closed in a link. -/
def unclosedStylesInLink : List Token :=
  [⟨.linkStart, 0, ['[']⟩, ⟨.bold, 1, ['*', '*']⟩, ⟨.italic, 3, ['*']⟩, ⟨.escape, 4, ['\\', ']']⟩,
    ⟨.address, 6, [']', '(', 'u', ')']⟩]

theorem syntaxTree_lossless_unclosedStyles : (∀ token ∈ unclosedStylesInLink, token.isReadable) ∧
    (assemble unclosedStylesInLink).trace.intact ∧
    ∃ tree, SyntaxTree.ofEvents? unclosedStylesInLink
        (assemble unclosedStylesInLink).trace.events.toList = some tree ∧
      tree.leaves = unclosedStylesInLink.map fun token => (.token token.kind, token.raw) := by
  have hreadable : ∀ token ∈ unclosedStylesInLink, token.isReadable := by decide
  obtain ⟨-, -, hintact, -, -, htree⟩ := syntaxTree_lossless.2.1 unclosedStylesInLink hreadable
  exact ⟨hreadable, hintact, htree⟩

end InlineMarkup
