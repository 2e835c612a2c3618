import TreeSchema.Proofs.Restriction.Marks

/-!
# Nodes as documents

A node of a compiled document makes a document of its own: the source of the whole document
with the source of the node for its root. What the node refers to is defined there as it was.
The labels keep their numbers and places, only the node has others; so that document does with
values at its root what the document does at the node.

* `Document.fragmentSource` — the source of the document of a node.
* `Document.fragment_behaves` — it compiles to a document that behaves as the node does.
-/

namespace TreeSchema

namespace Mapping

variable {α : Type}

theorem insert_insert (m : Mapping α) (key : String) (a b : α) :
    (m.insert key a).insert key b = m.insert key b := by
  apply ext_get?
  · rw [keys_insert, keys_insert, keys_insert]
    split <;> simp_all
  · intro query
    rw [get?_insert, get?_insert, get?_insert]
    split <;> simp_all

/-- Binding the last key of a list again replaces what it was bound to. -/
theorem insert_ofList_concat (es : List (String × α)) (key : String) (a b : α) :
    (ofList (es ++ [(key, a)])).insert key b = ofList (es ++ [(key, b)]) := by
  simp only [ofList_eq_foldl_insert, List.foldl_append, List.foldl_cons, List.foldl_nil]
  exact insert_insert _ key a b

end Mapping

namespace Document

variable {α : Type}

/-- The source of a document with the source of a node in the place of that of the root. -/
def fragmentSource (d : Document α) (n : Schema α) : Value :=
  match d.toSource with
  | .mapping fields => .mapping (fields.insert schemaKey n.toSource)
  | other => other

/-- The document with another root. -/
def withRoot (d : Document α) (n : Schema α) : Document α :=
  { d with root := n }

theorem fragmentSource_eq (d : Document α) (n : Schema α) :
    d.fragmentSource n = (d.withRoot n).toSource := by
  have replaced := Mapping.insert_ofList_concat
    ((versionKey, .number 1) ::
      (if d.labels.isEmpty then [] else [(labelsKey, .mapping (d.labels.map Schema.toSource))]))
    schemaKey d.root.toSource n.toSource
  rw [fragmentSource, toSource_eq, toSource_eq]
  exact congrArg Value.mapping replaced

/-- The root of a document may be replaced by any of its nodes. -/
theorem Complete.withRoot {d : Document α} (complete : d.Complete) {n : Schema α}
    (hn : n ∈ d.nodes) : (d.withRoot n).Complete :=
  complete_of_closed (fun _ _ hb => complete.closed (mem_nodes_of_body? hb)) (complete.closed hn)

/-- **A node of a compiled document behaves as the document of its own.** -/
theorem fragment_behaves {source : Value} {d : Document Site} (hd : compile source = .ok d)
    {n : Node} (hn : n ∈ d.nodes) :
    ∃ d', compile (d.fragmentSource n) = .ok d' ∧
      (∀ strict v path, (d'.validate strict d'.root v path).map Mismatch.unmarked =
        (d.validate strict n v path).map Mismatch.unmarked) ∧
      (∀ o v, d'.restrict o d'.root v = d.restrict o n v) ∧
      d'.zero d'.root = d.zero n := by
  have read : ofSource (d.fragmentSource n) = .ok (d.withRoot n).unmarked := by
    rw [fragmentSource_eq]
    exact ofSource_toSource ((complete_of_compile hd).withRoot hn)
  obtain ⟨e, -, rfl⟩ := compile_eq_ok_iff.mp hd
  have labels : (e.locate.withRoot n).unmarked.locate.labels = e.locate.labels :=
    congrArg locateLabels (map_unmarked_locateLabels e.labels)
  have root : (e.locate.withRoot n).unmarked.locate.root.unmarked = n.unmarked :=
    Schema.unmarked_locate _ _ _
  refine ⟨_, compile_eq_ok_iff.mpr ⟨_, read, rfl⟩, ?_, ?_, ?_⟩
  · exact validate_eq_of_unmarked_eq labels root
  · exact restrict_eq_of_unmarked_eq labels root
  · exact zero_eq_of_unmarked_eq labels root

/-- The source of links, each of which has a next one. -/
def chainSource : Value :=
  .mapping <| .ofList
    [(labelsKey, .mapping <| .ofList
      [("link", .mapping <| .ofList [("next", .sequence [.string "ref", .string "link"])])]),
      (schemaKey, .sequence [.string "array", .sequence [.string "ref", .string "link"]])]

/-- Links without end. -/
def chain : Document Unit where
  labels := .ofList
    [("link", .node () <| .object <| .ofList [("next", ⟨false, .node () (.ref "link")⟩)])]
  root := .node () (.array [] (.node () (.ref "link")))
  guarded := of_decide_eq_true (by cbv)

theorem compile_chainSource : compile chainSource = .ok chain.locate :=
  compile_eq_ok_iff.mpr
    ⟨chain, ofSource_eq_ok_iff.mpr ⟨by cbv, _, rfl, by cbv, by cbv, _, rfl, by cbv⟩, rfl⟩

/-- The reference of a link to the next one. -/
def nextLink : Node :=
  .node ⟨1, [.key labelsKey, .key "link", .key "next"]⟩ (.ref "link")

/-- A chain has no end, and none where it starts from a link's reference to the next: the error
is the same though the reference that the chain starts from is another one. -/
theorem fragment_behaves_chain :
    compile chainSource = .ok chain.locate ∧ nextLink ∈ chain.locate.nodes ∧
      chain.locate.zero nextLink = .error ⟨"link", nextLink.mark⟩ ∧
      ∃ d', compile (chain.locate.fragmentSource nextLink) = .ok d' ∧
        d'.zero d'.root = .error ⟨"link", nextLink.mark⟩ := by
  have hnode : nextLink ∈ chain.locate.nodes := List.mem_of_getElem? (i := 1) (by cbv)
  have endless : chain.locate.zero nextLink = .error ⟨"link", nextLink.mark⟩ := by cbv
  obtain ⟨d', compiled, -, -, zero⟩ := fragment_behaves compile_chainSource hnode
  exact ⟨compile_chainSource, hnode, endless, d', compiled, zero.trans endless⟩

end Document

end TreeSchema
