import IcecastRelay.Relay
import IcecastRelay.UpdateRelays
import IcecastRelay.ReloadLaws
import IcecastRelay.StreamList
import IcecastRelay.SlaveHosts
import IcecastRelay.Supervisor
import IcecastRelay.SourceRegistry
import IcecastRelay.Lifetimes
import IcecastRelay.Redirect
import IcecastRelay.Fetch
import IcecastRelay.Threads
import IcecastRelay.Refresh
import IcecastRelay.Starts
import IcecastRelay.Loop
import IcecastRelay.Request
