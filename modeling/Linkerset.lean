import Linkerset.Proof.SymbolKeys
import Linkerset.Proof.SymbolReports
import Linkerset.Proof.SymbolOutput
import Linkerset.Proof.Symbols
import Linkerset.Proof.SymbolTree
import Linkerset.Spec.SymbolInfo
import Linkerset.Search.Conflict
import Linkerset.Search.Tree
import Linkerset.Graph.Walk
import Linkerset.Proof.CycleRun
import Linkerset.Proof.Report
import Linkerset.Proof.EntryPaths
import Linkerset.Proof.Finalize
import Linkerset.Proof.Lifecycle
import Linkerset.Proof.Resume
import Linkerset.Proof.Redundant
import Linkerset.Proof.SymbolValues
import Linkerset.Proof.Contract
import Linkerset.Proof.Depth
import Linkerset.Graph.Extension
import Linkerset.Graph.Live
import Linkerset.Proof.Orders
import Linkerset.Proof.Cost
import Linkerset.Proof.Frame
import Linkerset.Proof.Output
import Linkerset.Text.Columns
import Linkerset.Spec.PrintOrder
import Linkerset.Proof.ExampleMain
import Linkerset.Proof.PrintOrder
import Linkerset.Proof.PrintedTable
import Linkerset.Search.Agree
import Linkerset.Proof.SymbolLink
import Linkerset.Proof.SymbolHeader
import Linkerset.Pointer.Range
import Linkerset.Spec.Image
import Linkerset.Proof.Image
