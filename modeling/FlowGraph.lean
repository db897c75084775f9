import FlowGraph.Disk
import FlowGraph.Dot.Derivation
import FlowGraph.Dot.Outline
import FlowGraph.Function.Layout
import FlowGraph.Function.Search
import FlowGraph.History
import FlowGraph.Main
import FlowGraph.Reader.Found
import FlowGraph.Proofs.Dot.Reading
import FlowGraph.Proofs.Function.Soundness
import FlowGraph.Proofs.Dot.Accepted
import FlowGraph.Proofs.Dot.Written
import FlowGraph.Proofs.Dot.Ids
import FlowGraph.Proofs.Dot.Sketch
import FlowGraph.Proofs.Dot.Exported
import FlowGraph.Proofs.Module.Histories
import FlowGraph.Proofs.Module.Loading
import FlowGraph.Proofs.Dot.RoundTrip
import FlowGraph.Proofs.Dot.Described
import FlowGraph.Family
import FlowGraph.Proofs.Function.Handles
import FlowGraph.Proofs.Family
import FlowGraph.Proofs.Function.Renaming
import FlowGraph.Proofs.Function.Entry
import FlowGraph.Proofs.Dot.Verdict
import FlowGraph.Proofs.Dot.Layout
import FlowGraph.Proofs.Dump
import FlowGraph.Ledger
import FlowGraph.Proofs.Command.Check
import FlowGraph.Proofs.Module.Apart
import FlowGraph.Proofs.Dot.Twins
import FlowGraph.Proofs.Dot.Declared
import FlowGraph.Proofs.Dot.Spacing
import FlowGraph.Proofs.Dot.Viable
import FlowGraph.Proofs.Function.Preorder
import FlowGraph.Proofs.Function.Deletion
import FlowGraph.Proofs.Dot.Clusters
import FlowGraph.Proofs.Function.Insertion
import FlowGraph.Proofs.Dot.Additions
import FlowGraph.Proofs.Dot.Naming
import FlowGraph.Proofs.Function.Opening
import FlowGraph.Proofs.Store.Modules
import FlowGraph.Proofs.Text.Quoted
import FlowGraph.Proofs.Disk.Plans
import FlowGraph.Proofs.Command.Invocation
import FlowGraph.Proofs.Toml.Document
import FlowGraph.Proofs.Toml.StyleFile
