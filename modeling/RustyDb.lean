import RustyDb.Basic
import RustyDb.Gorilla.BitStream
import RustyDb.Gorilla.Writer
import RustyDb.Gorilla.Reader
import RustyDb.Gorilla.Codes
import RustyDb.Gorilla.Stream
import RustyDb.Gorilla.Steps
import RustyDb.Gorilla.Api
import RustyDb.Gorilla.RoundTrip
import RustyDb.Gorilla.Simulation
import RustyDb.Gorilla.Runs
import RustyDb.Storage.Files
import RustyDb.Storage.Wal
import RustyDb.Storage.SSTable
import RustyDb.Storage.LsmTree
import RustyDb.Storage.Store
import RustyDb.Storage.TreeRuns
import RustyDb.Storage.ReadPath
import RustyDb.Storage.Recovery
import RustyDb.Storage.Faults
import RustyDb.Ingest
